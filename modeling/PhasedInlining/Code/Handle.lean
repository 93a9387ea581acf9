import Std.Data.TreeMap

/-!
# Handles

A module names its functions and its call instructions by numbers that it issues itself. The two
kinds are kept apart by their types, are ordered by their numbers, and fit in 32 bits.
-/

namespace PhasedInlining

/-- The greatest number of 32 bits. -/
def maxNumber : Nat := 4294967295

/-- The handle of a function: the slot of its module that it was put into. -/
structure FunctionId where
  index : Nat
deriving DecidableEq, Inhabited

/-- The handle of a call instruction. -/
structure CallSiteId where
  value : Nat
deriving DecidableEq, Inhabited

/-- Values that differ are told apart by their numbers. -/
theorem lawfulEqCmp_compareOn {α : Type} {number : α → Nat}
    (hnumber : ∀ {a b}, number a = number b → a = b) : Std.LawfulEqCmp (compareOn number) where
  eq_of_compare h := hnumber (Nat.compare_eq_eq.1 h)

namespace FunctionId

instance : LT FunctionId := ⟨fun f g => f.index < g.index⟩

instance (f g : FunctionId) : Decidable (f < g) := inferInstanceAs (Decidable (f.index < g.index))

instance : Ord FunctionId := ⟨compareOn index⟩

instance : Std.TransOrd FunctionId := inferInstanceAs (Std.TransCmp (compareOn index))

instance : Std.LawfulEqOrd FunctionId := lawfulEqCmp_compareOn (congrArg mk)

/-- The short form, which messages and module texts use. -/
def text (f : FunctionId) : String := "fn" ++ toString f.index

/-- The long form, which names the kind of handle. -/
def longText (f : FunctionId) : String := "FunctionId(" ++ toString f.index ++ ")"

end FunctionId

namespace CallSiteId

instance : Ord CallSiteId := ⟨compareOn value⟩

instance : Std.TransOrd CallSiteId := inferInstanceAs (Std.TransCmp (compareOn value))

instance : Std.LawfulEqOrd CallSiteId := lawfulEqCmp_compareOn (congrArg mk)

/-- The short form, which messages and module texts use. -/
def text (s : CallSiteId) : String := "cs" ++ toString s.value

/-- The long form, which names the kind of handle. -/
def longText (s : CallSiteId) : String := "CallSiteId(" ++ toString s.value ++ ")"

end CallSiteId

end PhasedInlining
