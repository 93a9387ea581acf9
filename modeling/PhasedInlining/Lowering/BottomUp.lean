import PhasedInlining.Lowering.Inlining
import PhasedInlining.Lowering.Options

/-!
# Inlining callees first

The functions of a snapshot are visited callees first, so that a function of the phase has had its
own calls inlined before its body is copied into its callers, and one visit of each is enough.

The snapshot grows old as calls are inlined. A recorded call is used only if it still goes to the
callee it was recorded for. Functions on call cycles, and those that call into one, are not visited.
-/

namespace PhasedInlining

variable {σ : Type} [Target σ]

open CallSource Target

namespace Inlining

/-- Inlines a recorded call of `callee`, if it still is one. -/
def attempt (phase : Nat) (callee : FunctionId) (s : Inlining σ) (call : FunctionId × CallSiteId) :
    Inlining σ :=
  let (caller, site) := call
  if currentCallee? s.target site = some callee then
    match s.change (inline · site) with
    | (.done, s) =>
      let message := "inlined " ++ displayName s.target callee ++ " into "
        ++ displayName s.target caller
      { s with
        toRun := (s.writeFor phase .debug message).record
          { kind := .functionInlined
            function? := some callee
            caller? := some caller
            phase? := some phase
            pass? := some bottomUpPass
            message }
        inlined := s.inlined + 1 }
    | (.refused reason, s) => s.refuse bottomUpPass phase caller callee reason
  else
    let message := "call site " ++ site.text ++ " in " ++ displayName s.target caller
      ++ " no longer targets " ++ displayName s.target callee
    { s with
      toRun := (s.writeFor phase .debug message).record
        { kind := .staleCallSite
          function? := some callee
          caller? := some caller
          phase? := some phase
          pass? := some bottomUpPass
          message := "skipped stale call site " ++ site.text }
      stale := s.stale + 1 }

/-- Inlines the recorded calls of `callee`, if it is marked for the phase. -/
def visit (phase : Nat) (snapshot : Snapshot) (s : Inlining σ) (callee : FunctionId) :
    Except (Halt σ) (Inlining σ) :=
  (s.check (isMarked phase s.target callee)).map fun marked =>
    if marked then (snapshot.callsTo callee).foldl (attempt phase callee) s else s

end Inlining

/-- Inlines the calls to functions of a phase, callees first. -/
def bottomUp (phase : Nat) (snapshot : Snapshot) (r : Run σ) : Ending σ InlineReport :=
  let drained := snapshot.drain
  (drained.ready.toList.foldlM (Inlining.visit phase snapshot) { r with }).map fun s =>
    (s.toRun, s.report drained)

end PhasedInlining
