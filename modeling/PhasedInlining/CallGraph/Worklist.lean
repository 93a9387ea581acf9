import PhasedInlining.CallGraph.Snapshot

/-!
# Callees first

A function becomes ready once each of its calls has been resolved. Functions are handed out in the
order in which they become ready, and handing one out lets its callers' calls to it be resolved.
What never becomes ready calls itself, or reaches a function that does, through other calls.

`Snapshot.drain` hands out all that can be handed out. Nothing it does depends on what is done with
the functions meanwhile.
-/

namespace PhasedInlining

structure Worklist where
  /-- How many calls of each function are still to be resolved. -/
  pending : Std.TreeMap FunctionId Nat := ∅
  /-- The functions that are ready, in the order in which they became so. -/
  ready : Array FunctionId := #[]
  /-- How many of the ready functions have been handed out. -/
  processed : Nat := 0

namespace Worklist

/-- At the start the functions without calls are ready. -/
def seed (s : Snapshot) : Worklist := { pending := s.pending, ready := s.sinks.toArray }

/-- Hands out the function that has been ready for longest. -/
def next? (w : Worklist) : Option (FunctionId × Worklist) :=
  w.ready[w.processed]?.map fun f => (f, { w with processed := w.processed + 1 })

/-- Resolves a call of `caller`, and says whether that made the caller ready. Functions that are
not there or ready already stay as they are. -/
def resolve (w : Worklist) (caller : FunctionId) : Bool × Worklist :=
  match w.pending[caller]? with
  | none | some 0 => (false, w)
  | some 1 => (true, { w with
      pending := w.pending.insert caller 0
      ready := w.ready.push caller })
  | some (n + 2) => (false, { w with pending := w.pending.insert caller (n + 1) })

def pending? (w : Worklist) (f : FunctionId) : Option Nat := w.pending[f]?

/-- The number of functions, ready or not. -/
def total (w : Worklist) : Nat := w.pending.size

/-- Whether no function waits to be handed out. -/
def isEmpty (w : Worklist) : Bool := w.ready.size ≤ w.processed

/-- Whether every function has been handed out. -/
def isComplete (w : Worklist) : Bool := w.processed == w.total

/-- The functions that are not ready, by their handles. -/
def unresolved (w : Worklist) : List FunctionId :=
  (w.pending.toList.filter (0 < ·.2)).map (·.1)

/-- Resolves all calls to a function. -/
def release (w : Worklist) (s : Snapshot) (callee : FunctionId) : Worklist :=
  (s.callsTo callee).foldl (fun w call => (w.resolve call.1).2) w

/-- Hands out up to `fuel` functions and resolves the calls to each. -/
def drainFrom (s : Snapshot) : Nat → Worklist → Worklist
  | 0, w => w
  | fuel + 1, w =>
    match w.next? with
    | none => w
    | some (callee, w) => drainFrom s fuel (w.release s callee)

end Worklist

/-- The worklist after all that can be handed out has been. A function is handed out at most once,
so as many steps as there are functions are enough. -/
def Snapshot.drain (s : Snapshot) : Worklist := Worklist.drainFrom s s.functionCount (.seed s)

end PhasedInlining
