import PhasedInlining.Code.Handle

/-!
# Instructions

A body is a list of instructions. Only calls and references say anything to inlining; everything
else is opaque text. Calls carry a label: a handle once a module owns them, nothing in a draft.

`Body.issue` labels the calls of a body with consecutive fresh handles, `Body.draft` forgets the
labels again, and two bodies with one draft are equal up to their handles.
-/

namespace PhasedInlining

/-- What a call goes to. -/
inductive CallTarget where
  | direct (callee : FunctionId)
  | indirect
deriving DecidableEq

namespace CallTarget

/-- The function that a direct call goes to. -/
def callee? : CallTarget → Option FunctionId
  | direct f => some f
  | indirect => none

def text : CallTarget → String
  | direct f => f.text
  | indirect => "indirect"

end CallTarget

/-- An instruction whose calls are labelled by `α`. -/
inductive Instr (α : Type) where
  | op (text : String)
  | call (site : α) (target : CallTarget)
  | ref (function : FunctionId)
  | ret
deriving DecidableEq

/-- The instructions of a function that a module owns. -/
abbrev Body := List (Instr CallSiteId)

/-- Instructions without handles. -/
abbrev Draft := List (Instr Unit)

namespace Instr

variable {α β : Type}

def map (g : α → β) : Instr α → Instr β
  | op t => op t
  | call s t => call (g s) t
  | ref f => ref f
  | ret => ret

def isCall : Instr α → Bool
  | call _ _ => true
  | _ => false

def isRet : Instr α → Bool
  | ret => true
  | _ => false

/-- The label of a call. -/
def site? : Instr α → Option α
  | call s _ => some s
  | _ => none

/-- The function that a direct call goes to. -/
def callee? : Instr α → Option FunctionId
  | call _ t => t.callee?
  | _ => none

/-- The function that the instruction calls directly or refers to. -/
def used? : Instr α → Option FunctionId
  | call _ t => t.callee?
  | ref f => some f
  | _ => none

def text : Instr CallSiteId → String
  | op t => t
  | call s t => "call " ++ t.text ++ " ; " ++ s.text
  | ref f => "ref " ++ f.text
  | ret => "ret"

end Instr

namespace Body

variable {α β : Type}

/-- The number of calls, direct or not. -/
def callCount (is : List (Instr α)) : Nat := is.countP Instr.isCall

/-- The labels of the calls, in order. -/
def sites (is : List (Instr α)) : List α := is.filterMap Instr.site?

/-- The targets of the direct calls, in order and with repetitions. -/
def callees (is : List (Instr α)) : List FunctionId := is.filterMap Instr.callee?

/-- The targets of the direct calls and the references, in order and with repetitions. -/
def uses (is : List (Instr α)) : List FunctionId := is.filterMap Instr.used?

def withoutReturns (is : List (Instr α)) : List (Instr α) := is.filter fun i => !i.isRet

/-- The body without its handles. -/
def draft (is : List (Instr α)) : Draft := is.map (Instr.map fun _ => ())

/-- The calls labelled anew, by consecutive handles from `next` on. -/
def issue (next : Nat) : List (Instr α) → Body
  | [] => []
  | .op t :: is => .op t :: issue next is
  | .call _ t :: is => .call ⟨next⟩ t :: issue (next + 1) is
  | .ref f :: is => .ref f :: issue next is
  | .ret :: is => .ret :: issue next is

/-- The longest initial part with at most `room` calls. -/
def takeCalls : Nat → List (Instr α) → List (Instr α)
  | _, [] => []
  | 0, i :: is => if i.isCall then [] else i :: takeCalls 0 is
  | room + 1, i :: is => i :: takeCalls (if i.isCall then room else room + 1) is

@[simp]
theorem draft_append (is js : List (Instr α)) : draft (is ++ js) = draft is ++ draft js :=
  List.map_append

@[simp]
theorem draft_issue (next : Nat) (is : List (Instr α)) : draft (issue next is) = draft is := by
  induction is generalizing next with
  | nil => rfl
  | cons i is ih =>
    cases i <;> simp only [issue, draft, List.map_cons, List.cons.injEq] <;>
      exact ⟨rfl, ih _⟩

/-- Fresh handles are consecutive. -/
theorem sites_issue (next : Nat) (is : List (Instr α)) :
    sites (issue next is) = (List.range' next (callCount is)).map CallSiteId.mk := by
  induction is generalizing next with
  | nil => rfl
  | cons i is ih =>
    cases i with
    | call s t =>
      have hc : callCount (.call s t :: is) = callCount is + 1 := List.countP_cons_of_pos rfl
      rw [hc, List.range'_succ, List.map_cons, ← ih (next + 1)]
      rfl
    | op t => exact ih next
    | ref f => exact ih next
    | ret => exact ih next

end Body

end PhasedInlining
