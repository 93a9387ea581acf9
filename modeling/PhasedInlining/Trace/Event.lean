import PhasedInlining.Code.Handle

/-!
# Events

A run records what it did and what it found as events, in order. Everything that is counted about
a run can be counted from them.
-/

namespace PhasedInlining

inductive EventKind where
  | functionInlined
  | functionRemoved
  | inlineFailed
  | staleCallSite
  | cycleDetected
  | invariantViolation
  | passStarted
  | passCompleted
deriving DecidableEq

namespace EventKind

/-- The kinds, changes to the code first. -/
def all : List EventKind :=
  [functionInlined, functionRemoved, inlineFailed, staleCallSite, cycleDetected,
    invariantViolation, passStarted, passCompleted]

def description : EventKind → String
  | functionInlined => "function inlined"
  | functionRemoved => "function removed"
  | inlineFailed => "inline failed"
  | staleCallSite => "stale call site"
  | cycleDetected => "call cycle detected"
  | invariantViolation => "invariant violation"
  | passStarted => "pass started"
  | passCompleted => "pass completed"

/-- Whether an event of this kind is a change to the code. -/
def isTransformation : EventKind → Bool
  | functionInlined | functionRemoved => true
  | _ => false

end EventKind

structure Event where
  kind : EventKind
  /-- The function that the event is about: the callee of a call, or what was removed. -/
  function? : Option FunctionId := none
  caller? : Option FunctionId := none
  phase? : Option Nat := none
  pass? : Option String := none
  message : String := kind.description
deriving DecidableEq

def Event.text (e : Event) : String := "[" ++ e.kind.description ++ "] " ++ e.message

/-- Events in the order in which they were recorded. -/
structure EventLog where
  events : Array Event := #[]

namespace EventLog

def size (l : EventLog) : Nat := l.events.size

def isEmpty (l : EventLog) : Bool := l.events.isEmpty

def record (l : EventLog) (e : Event) : EventLog := ⟨l.events.push e⟩

/-- The events of `l`, then those of `k`. -/
def merge (l k : EventLog) : EventLog := ⟨l.events ++ k.events⟩

def ofKind (l : EventLog) (k : EventKind) : List Event := l.events.toList.filter (·.kind == k)

def has (l : EventLog) (k : EventKind) : Bool := l.events.any (·.kind == k)

def count (l : EventLog) (k : EventKind) : Nat := l.events.countP (·.kind == k)

/-- The numbers of inlined calls and removed functions, or of events if there are neither. -/
def summary (l : EventLog) : String :=
  if l.isEmpty then "no events"
  else
    let counts := (EventKind.all.filter fun k => k.isTransformation && l.has k).map fun k =>
      toString (l.count k) ++ " " ++ k.description
    if counts.isEmpty then toString l.size ++ " events" else ", ".intercalate counts

end EventLog

end PhasedInlining
