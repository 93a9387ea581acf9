import PhasedInlining.CallGraph.Worklist
import PhasedInlining.Lowering.Run

/-!
# Inlining a phase

What the two ways of inlining a phase have in common: the counts they keep, the report they give,
and how a refused call is recorded.
-/

namespace PhasedInlining

/-- What inlining a phase did. -/
structure InlineReport where
  inlined : Nat := 0
  /-- The number of calls that the target refused to inline. -/
  failed : Nat := 0
  /-- The number of recorded calls that no longer went to their callee. -/
  stale : Nat := 0
  /-- The number of functions whose calls were all resolved. -/
  processed : Nat := 0
  total : Nat := 0
  /-- The other functions, by their handles. -/
  unresolved : List FunctionId := []
deriving DecidableEq

def InlineReport.changed (r : InlineReport) : Bool := 0 < r.inlined

/-- A run in the middle of inlining, with its counts. -/
structure Inlining (σ : Type) extends Run σ where
  inlined : Nat := 0
  failed : Nat := 0
  stale : Nat := 0

namespace Inlining

variable {σ : Type} [Target σ]

/-- The counts, with the functions that the worklist handed out and those that it kept. -/
def report (s : Inlining σ) (w : Worklist) : InlineReport where
  inlined := s.inlined
  failed := s.failed
  stale := s.stale
  processed := w.processed
  total := w.total
  unresolved := w.unresolved

/-- Changes the target, and hands on the answer to the change. -/
def change {α : Type} (s : Inlining σ) (f : σ → α × σ) : α × Inlining σ :=
  let { toRun, inlined, failed, stale } := s
  let (answer, toRun) := toRun.change f
  (answer, { toRun, inlined, failed, stale })

/-- Records that the target refused to inline a call. -/
def refuse (s : Inlining σ) (pass : String) (phase : Nat) (caller callee : FunctionId)
    (reason : String) : Inlining σ :=
  let message := "failed to inline " ++ displayName s.target callee ++ " into "
    ++ displayName s.target caller ++ ": " ++ reason
  { s with
    toRun := (s.writeFor phase .warn message).record
      { kind := .inlineFailed
        function? := some callee
        caller? := some caller
        phase? := some phase
        pass? := some pass
        message }
    failed := s.failed + 1 }

end Inlining

end PhasedInlining
