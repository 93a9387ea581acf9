import PhasedInlining.Lowering.Outcome

/-!
# Lowering several phases

The phases are lowered one after the other, each on what the one before left. The first that stops
short ends the row, and what was done before it stays done.
-/

namespace PhasedInlining

variable {σ : Type} [Target σ]

/-- What each phase did, in order. -/
structure Outcomes where
  outcomes : List Outcome := []

namespace Outcomes

def changed (os : Outcomes) : Bool := os.outcomes.any (·.changed)

def inlined (os : Outcomes) : Nat := os.outcomes.foldl (fun n o => n + o.inlined) 0

/-- The names of the functions removed, in the order of their removal. -/
def removed (os : Outcomes) : List String := os.outcomes.flatMap fun o => o.removed.map (·.name)

/-- The first outcome of a phase. -/
def outcome? (os : Outcomes) (phase : Nat) : Option Outcome :=
  os.outcomes.find? (·.phase == phase)

/-- The events of all phases. -/
def log (os : Outcomes) : EventLog := os.outcomes.foldl (fun l o => l.merge o.log) {}

end Outcomes

/-- Lowers one phase more. -/
def lowerNext (o : Options) (done : Run σ × Outcomes) (phase : Nat) : Ending σ Outcomes :=
  (lower { o with phase } done.1).map fun (r, outcome) =>
    (r.write .debug outcome.text, ⟨done.2.outcomes ++ [outcome]⟩)

/-- Lowers phases in order, each with the same options otherwise. -/
def lowerAll (o : Options) (phases : List Nat) (r : Run σ) : Ending σ Outcomes :=
  phases.foldlM (m := Except (Halt σ)) (lowerNext o) (r, {})

end PhasedInlining
