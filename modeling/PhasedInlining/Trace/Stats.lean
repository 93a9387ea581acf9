import PhasedInlining.Trace.Event

/-!
# Counts of a run

What a run did in numbers, read off its events.
-/

namespace PhasedInlining

structure Stats where
  inlined : Nat := 0
  inlineFailures : Nat := 0
  staleCallSites : Nat := 0
  removed : Nat := 0
  cycles : Nat := 0
  invariantViolations : Nat := 0
deriving DecidableEq

namespace Stats

def ofLog (l : EventLog) : Stats where
  inlined := l.count .functionInlined
  inlineFailures := l.count .inlineFailed
  staleCallSites := l.count .staleCallSite
  removed := l.count .functionRemoved
  cycles := l.count .cycleDetected
  invariantViolations := l.count .invariantViolation

/-- Whether the code was changed. -/
def changed (s : Stats) : Bool := 0 < s.inlined || 0 < s.removed

/-- The counts that are not zero, of those worth a line. -/
def summary (s : Stats) : String :=
  let counts := [(s.inlined, "inlined"), (s.removed, "removed"), (s.inlineFailures, "failed"),
    (s.cycles, "cycles")]
  let parts := (counts.filter (0 < ·.1)).map fun (n, what) => toString n ++ " " ++ what
  if parts.isEmpty then "no changes" else ", ".intercalate parts

end Stats

end PhasedInlining
