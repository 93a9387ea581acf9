import PhasedInlining.CallGraph.Cycle
import PhasedInlining.Lowering.BottomUp
import PhasedInlining.Lowering.Rescan
import PhasedInlining.Lowering.Sweep
import PhasedInlining.Trace.Stats

/-!
# Lowering one phase

`lower` checks the target, takes a snapshot of its calls, inlines the calls to functions of the
phase, sorts what could not be resolved into call cycles, and removes what is no longer used. Tags
and protection are checked first, so a run that a bad function stops has changed nothing.
-/

namespace PhasedInlining

variable {σ : Type} [Target σ]

open CallSource Target

/-- What inlining could not resolve. -/
structure Residue where
  processed : Nat := 0
  total : Nat := 0
  /-- The functions on call cycles and those that call into one, by their handles. -/
  unresolved : List FunctionId := []
  /-- The call cycles among them, callees first. -/
  cycles : List (List FunctionId) := []
deriving DecidableEq

namespace Residue

def isEmpty (r : Residue) : Bool := r.unresolved.isEmpty

def inCycle (r : Residue) (f : FunctionId) : Bool := r.cycles.any (·.contains f)

end Residue

/-- Whether what is known about a module is still true after a run. -/
inductive Preserved where
  | all
  | nothing
deriving DecidableEq

/-- What lowering a phase did. -/
structure Outcome where
  phase : Nat
  changed : Bool
  inlined : Nat
  failed : Nat
  removed : List RemovedFunction
  residue : Residue
  log : EventLog

namespace Outcome

def preserved (o : Outcome) : Preserved := if o.changed then .nothing else .all

def stats (o : Outcome) : Stats := .ofLog o.log

def wasRemoved (o : Outcome) (name : String) : Bool := o.removed.any (·.name == name)

def text (o : Outcome) : String :=
  let resolved := if o.residue.isEmpty then "" else
    " (" ++ toString o.residue.processed ++ " of " ++ toString o.residue.total
      ++ " functions resolved)"
  "phase " ++ toString o.phase ++ ": " ++ o.stats.summary ++ resolved

end Outcome

namespace Options

/-- Checks the tag of a function, and that it is not both protected and of the phase. -/
def validateFunction (o : Options) (r : Run σ) (f : FunctionId) : Except (Halt σ) (Run σ) :=
  (r.check (isMarked o.phase r.target f)).bind fun marked =>
    let violation := Violation.protectedMarked f (displayName r.target f) o.phase
    if !marked || !isProtected r.target f then .ok r
    else if o.strict then .error { r with fault := .invariantViolation violation }
    else
      .ok ((r.write .error violation.message).record
        { kind := .invariantViolation
          function? := some f
          phase? := some o.phase
          message := violation.message })

/-- Checks every function that the target lists. -/
def validate (o : Options) (r : Run σ) : Except (Halt σ) (Run σ) :=
  (functionIds r.target).foldlM o.validateFunction r

/-- Inlines the calls to functions of the phase. -/
def inlinePhase (o : Options) (snapshot : Snapshot) (r : Run σ) : Ending σ InlineReport :=
  match o.strategy with
  | .bottomUp => bottomUp o.phase snapshot r
  | .rescan cap => rescan o.phase cap r

/-- Records a call cycle. -/
def recordCycle (o : Options) (r : Run σ) (cycle : List FunctionId) : Run σ :=
  let message := "call cycle left unresolved: "
    ++ ", ".intercalate (cycle.map (displayName r.target))
  (r.writeFor o.phase .warn message).record
    { kind := .cycleDetected
      function? := cycle.head?
      phase? := some o.phase
      message }

/-- Reports the functions left unresolved, by cycles if they are to be diagnosed. -/
def diagnose (o : Options) (snapshot : Snapshot) (report : InlineReport) (r : Run σ) :
    Run σ × Residue :=
  let residue : Residue :=
    { processed := report.processed, total := report.total, unresolved := report.unresolved }
  if residue.isEmpty then (r, residue)
  else
    let left := toString residue.unresolved.length
    let r := r.writeFor o.phase .warn
      (left ++ " of " ++ toString residue.total ++ " functions left unresolved by call cycles")
    if o.diagnoses then
      let cycles := snapshot.cycles residue.unresolved
      (cycles.foldl o.recordCycle r, { residue with cycles })
    else
      let r := r.record
        { kind := .cycleDetected
          phase? := some o.phase
          message := left ++ " functions left unresolved" }
      (r, residue)

/-- Removes what is no longer used, if that is asked for. -/
def sweepPhase (o : Options) (r : Run σ) : Ending σ (List RemovedFunction) :=
  if o.sweeps then sweep o.phase r else .ok (r, [])

/-- Records that the run starts, and takes the snapshot. -/
def begin (o : Options) (r : Run σ) : Run σ × Snapshot :=
  let snapshot := Snapshot.ofSource r.target
  let r := r.record
    { kind := .passStarted
      phase? := some o.phase
      pass? := some o.strategy.passName
      message := "lowering phase " ++ toString o.phase }
  let r := r.writeFor o.phase .debug
    ("indexed " ++ toString snapshot.functionCount ++ " functions, "
      ++ toString snapshot.edgeCount ++ " call edges (" ++ toString snapshot.skippedCount
      ++ " skipped), " ++ toString snapshot.sinks.length ++ " sinks")
  (r, snapshot)

/-- Records that the run is complete, and sums it up. -/
def complete (o : Options) (report : InlineReport) (residue : Residue)
    (removed : List RemovedFunction) (r : Run σ) : Run σ × Outcome :=
  let r := r.record
    { kind := .passCompleted
      phase? := some o.phase
      pass? := some o.strategy.passName
      message := "phase " ++ toString o.phase ++ ": " ++ toString report.inlined ++ " inlined, "
        ++ toString removed.length ++ " removed" }
  let outcome : Outcome :=
    { phase := o.phase
      changed := report.changed || !removed.isEmpty
      inlined := report.inlined
      failed := report.failed
      removed
      residue
      log := r.log }
  (r.writeFor o.phase .debug r.log.summary, outcome)

end Options

/-- Lowers a phase. The run's lines are continued; its events start anew. -/
def lower (o : Options) (r : Run σ) : Ending σ Outcome :=
  (o.validate { r with log := {} }).bind fun r =>
    let (r, snapshot) := o.begin r
    (o.inlinePhase snapshot r).bind fun (r, report) =>
      let (r, residue) := o.diagnose snapshot report r
      (o.sweepPhase r).map fun (r, removed) => o.complete report residue removed r

end PhasedInlining
