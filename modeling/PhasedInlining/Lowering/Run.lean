import PhasedInlining.Target
import PhasedInlining.Trace.Event

/-!
# Runs

A run holds the target as changed so far, the events recorded, and the lines written for whoever
watches. A run that stops short keeps all three as they were at that moment.
-/

namespace PhasedInlining

/-- How much a line matters. -/
inductive Level where
  | error
  | warn
  | debug
deriving DecidableEq

def Level.text : Level → String
  | error => "ERROR"
  | warn => "WARN"
  | debug => "DEBUG"

/-- A line for whoever watches a run. -/
structure Line where
  level : Level
  message : String
deriving DecidableEq

def Line.text (l : Line) : String := l.level.text ++ " " ++ l.message

structure Run (σ : Type) where
  target : σ
  log : EventLog := {}
  lines : Array Line := #[]

/-- A run that stopped short, and why. -/
structure Halt (σ : Type) extends Run σ where
  fault : Fault

/-- How a pass ends: with the run and what the pass has to report, or short of that. -/
abbrev Ending (σ α : Type) := Except (Halt σ) (Run σ × α)

variable {σ α : Type}

namespace Ending

/-- The run at its end, whichever end that is. -/
def run : Ending σ α → Run σ
  | .ok (r, _) => r
  | .error halt => halt.toRun

/-- What the pass reports, or why it does not. -/
def report : Ending σ α → Except Fault α
  | .ok (_, a) => .ok a
  | .error halt => .error halt.fault

end Ending

namespace Run

/-- Changes the target, and hands on the answer to the change. -/
def change (r : Run σ) (f : σ → α × σ) : α × Run σ :=
  let { target, log, lines } := r
  let (answer, target) := f target
  (answer, { target, log, lines })

def record (r : Run σ) (e : Event) : Run σ := { r with log := r.log.record e }

def write (r : Run σ) (level : Level) (message : String) : Run σ :=
  { r with lines := r.lines.push ⟨level, message⟩ }

/-- Writes a line about the lowering of `phase`. -/
def writeFor (r : Run σ) (phase : Nat) (level : Level) (message : String) : Run σ :=
  r.write level ("phase " ++ toString phase ++ ": " ++ message)

/-- Goes on with the value of a check, or stops. -/
def check (r : Run σ) : Except Fault α → Except (Halt σ) α
  | .ok a => .ok a
  | .error fault => .error { r with fault }

end Run

end PhasedInlining
