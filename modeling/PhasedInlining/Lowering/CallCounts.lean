import PhasedInlining.Target

/-!
# Counts of direct calls

How often each function calls each other one directly. The counts follow the copying of bodies
without looking at the code again.
-/

namespace PhasedInlining

/-- For each caller its callees, each with the number of calls, which is never zero. -/
structure CallCounts where
  counts : Std.TreeMap FunctionId (Std.TreeMap FunctionId Nat) := ∅

namespace CallCounts

def ofCaller (c : CallCounts) (caller : FunctionId) : Std.TreeMap FunctionId Nat :=
  c.counts.getD caller ∅

def count (c : CallCounts) (caller callee : FunctionId) : Nat := (c.ofCaller caller).getD callee 0

/-- Whether one function calls another directly. -/
def contains (c : CallCounts) (caller callee : FunctionId) : Bool :=
  (c.ofCaller caller).contains callee

/-- Adds `n` calls of `callee` to those of one caller. -/
def addTo (own : Std.TreeMap FunctionId Nat) (callee : FunctionId) (n : Nat) :
    Std.TreeMap FunctionId Nat :=
  own.insert callee (own.getD callee 0 + n)

/-- Takes a call of `callee` from those of one caller. -/
def dropFrom (own : Std.TreeMap FunctionId Nat) (callee : FunctionId) :
    Std.TreeMap FunctionId Nat :=
  match own[callee]? with
  | none => own
  | some n => if n ≤ 1 then own.erase callee else own.insert callee (n - 1)

/-- Counts a call, if it is direct. -/
def addEdge (c : CallCounts) (e : CallEdge) : CallCounts :=
  match e.target with
  | .indirect => c
  | .direct callee => ⟨c.counts.insert e.caller (addTo (c.ofCaller e.caller) callee 1)⟩

def ofEdges (es : List CallEdge) : CallCounts := es.foldl addEdge {}

/-- The counts after one call from `caller` to `callee` has been replaced by the callee's body. -/
def splice (c : CallCounts) (caller callee : FunctionId) : CallCounts :=
  let own := dropFrom (c.ofCaller caller) callee
  ⟨c.counts.insert caller
    ((c.ofCaller callee).toList.foldl (fun own (f, n) => addTo own f n) own)⟩

end CallCounts

end PhasedInlining
