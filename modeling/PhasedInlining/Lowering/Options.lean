import PhasedInlining.Fault

/-!
# Options of a run
-/

namespace PhasedInlining

/-! The names under which passes record events. -/

def bottomUpPass : String := "bottom-up-inliner"

def rescanPass : String := "fixpoint-inliner"

def sweepPass : String := "dead-phase-function-sweeper"

/-- How the calls to a phase's functions are found and inlined. -/
inductive Strategy where
  /-- Once, callees before callers. Functions on call cycles stay as they are. -/
  | bottomUp
  /-- By scanning all calls again and again until a scan changes nothing, at most `cap` times. -/
  | rescan (cap : Nat)
deriving DecidableEq

namespace Strategy

/-- How often a module is scanned unless something else is said. -/
def defaultCap : Nat := 32

def passName : Strategy → String
  | bottomUp => bottomUpPass
  | rescan _ => rescanPass

end Strategy

structure Options where
  /-- The phase whose functions are inlined and removed. -/
  phase : Nat := 0
  strategy : Strategy := .bottomUp
  /-- A protected function of the phase stops the run; otherwise it is recorded and kept. -/
  strict : Bool := true
  /-- Functions of the phase that nothing uses any more are removed. -/
  sweeps : Bool := true
  /-- Functions that could not be resolved are sorted into call cycles. -/
  diagnoses : Bool := true
deriving DecidableEq

end PhasedInlining
