import Std.Data.TreeSet
import PhasedInlining.Target

/-!
# Snapshots of a call graph

A snapshot records the direct calls between functions with bodies as a call source reports them at
one moment. It does not follow later changes, so whoever uses a recorded call checks that it still
goes where it went.

Calls are counted and listed one by one: two calls from one function to another are two edges.
-/

namespace PhasedInlining

structure Snapshot where
  /-- The functions with bodies, and how many calls to such functions each of them makes. -/
  pending : Std.TreeMap FunctionId Nat := ∅
  /-- For each callee its callers, and for each caller its calls in the order reported. -/
  callers : Std.TreeMap FunctionId (Std.TreeMap FunctionId (Array CallSiteId)) := ∅
  /-- For each caller its callees. -/
  callees : Std.TreeMap FunctionId (Std.TreeSet FunctionId) := ∅
  edgeCount : Nat := 0
  /-- The number of calls that are indirect or have an end without a body. -/
  skippedCount : Nat := 0

namespace Snapshot

def contains (s : Snapshot) (f : FunctionId) : Bool := s.pending.contains f

/-- Records a call, or counts it as skipped. -/
def addEdge (s : Snapshot) (e : CallEdge) : Snapshot :=
  match e.target with
  | .indirect => { s with skippedCount := s.skippedCount + 1 }
  | .direct callee =>
    if s.contains e.caller && s.contains callee then
      { s with
        pending := s.pending.alter e.caller fun n => n.map (· + 1)
        callers := s.callers.alter callee fun cs =>
          some ((cs.getD ∅).alter e.caller fun sites => some ((sites.getD #[]).push e.site))
        callees := s.callees.alter e.caller fun fs => some ((fs.getD ∅).insert callee)
        edgeCount := s.edgeCount + 1 }
    else { s with skippedCount := s.skippedCount + 1 }

/-- The functions of a list, without any calls. -/
def ofFunctions (fs : List FunctionId) : Snapshot :=
  { pending := fs.foldl (fun p f => p.insert f 0) ∅ }

/-- The call graph that a source shows now. -/
def ofSource {σ : Type} [CallSource σ] (t : σ) : Snapshot :=
  (CallSource.callEdges t).foldl addEdge
    (ofFunctions ((CallSource.functionIds t).filter (CallSource.hasBody t)))

def functionCount (s : Snapshot) : Nat := s.pending.size

/-- The functions with bodies, by their handles. -/
def functionIds (s : Snapshot) : List FunctionId := s.pending.keys

/-- The number of calls that a function makes. -/
def pending? (s : Snapshot) (f : FunctionId) : Option Nat := s.pending[f]?

/-- The functions that make no calls. -/
def sinks (s : Snapshot) : List FunctionId :=
  (s.pending.toList.filter (·.2 == 0)).map (·.1)

/-- The callers of a function by their handles, each with its calls. -/
def callersOf (s : Snapshot) (callee : FunctionId) : List (FunctionId × Array CallSiteId) :=
  (s.callers.getD callee ∅).toList

/-- The calls from one function to another, in the order reported. -/
def sitesBetween (s : Snapshot) (callee caller : FunctionId) : List CallSiteId :=
  ((s.callers.getD callee ∅).getD caller #[]).toList

/-- The functions that a function calls, by their handles. -/
def calleesOf (s : Snapshot) (caller : FunctionId) : List FunctionId :=
  (s.callees.getD caller ∅).toList

/-- The calls to a function with their callers, in the order in which they are attended to. -/
def callsTo (s : Snapshot) (callee : FunctionId) : List (FunctionId × CallSiteId) :=
  (s.callersOf callee).flatMap fun (caller, sites) => sites.toList.map (caller, ·)

/-- Whether a function calls another directly. -/
def Calls (s : Snapshot) (caller callee : FunctionId) : Prop := callee ∈ s.calleesOf caller

end Snapshot

end PhasedInlining
