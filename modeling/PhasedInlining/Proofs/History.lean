import Mathlib.Logic.Relation
import PhasedInlining.Proofs.Lowering.BottomUp
import PhasedInlining.Proofs.Lowering.Sweep

/-!
# Whole histories of a module

A module's history is a row of edits and lowerings, each of which may fail and then leaves the
module as far as it came. Every module with a history is well-formed. Lowerings alone, however many
and in whatever order, cannot be noticed by executing what they leave.
-/

namespace PhasedInlining

namespace Module

/-- One lowering, by a single splice, a pass, or the passes for one phase or several. A snapshot may
be of any age or origin, and a run may have events and lines from before. -/
inductive Lowers : Module → Module → Prop
  | splice (m : Module) (s : CallSiteId) : Lowers m (m.splice s).2
  | bottomUp (phase : Nat) (snapshot : Snapshot) (r : Run Module) :
    Lowers r.target (PhasedInlining.bottomUp phase snapshot r).run.target
  | rescan (phase cap : Nat) (r : Run Module) :
    Lowers r.target (PhasedInlining.rescan phase cap r).run.target
  | sweep (phase : Nat) (r : Run Module) :
    Lowers r.target (PhasedInlining.sweep phase r).run.target
  | lower (o : Options) (r : Run Module) : Lowers r.target (PhasedInlining.lower o r).run.target
  | lowerAll (o : Options) (phases : List Nat) (r : Run Module) :
    Lowers r.target (PhasedInlining.lowerAll o phases r).run.target

/-- One step of a history. -/
inductive Edits : Module → Module → Prop
  | add (m : Module) (f : Function) : Edits m (m.add f).2
  | append {α : Type} (m : Module) (f : FunctionId) (is : List (Instr α)) :
    Edits m (m.append f is).2
  | remove (m : Module) (f : FunctionId) : Edits m (m.remove f).2
  | lowers {m m' : Module} : Lowers m m' → Edits m m'

variable {m m' : Module}

/-- What a splice keeps, and the removal of an unused function, every lowering keeps. -/
theorem Lowers.keeps {P : Module → Prop} (hsplice : ∀ m s, P m → P (m.splice s).2)
    (hremove : ∀ m f, P m → m.Unused f → P (m.remove f).2) (hwf : ∀ m, P m → m.WellFormed)
    (h : Lowers m m') (hm : P m) : P m' := by
  have hinline : ∀ t s, P t → P (Target.inline t s).2 := fun t s ht =>
    t.target_inline s ▸ hsplice t s ht
  have hsweep : ∀ phase, ∀ r : Run Module, P r.target → Keeps P (PhasedInlining.sweep phase r) :=
    fun phase r hr => Sweep.sweep_keeps (fun m f _ hm hu _ => hremove m f hm hu) r (hwf _ hr) hr
  cases h with
  | splice m s => exact hsplice m s hm
  | bottomUp phase snapshot r => exact (bottomUp_keeps hinline snapshot r hm).run
  | rescan phase cap r => exact (rescan_keeps hinline cap r hm).run
  | sweep phase r => exact (hsweep phase r hm).run
  | lower o r => exact (lower_keeps o hinline (hsweep o.phase) r hm).run
  | lowerAll o phases r =>
    exact (lowerAll_keeps o hinline phases (fun phase _ => hsweep phase) r hm).run

theorem WellFormed.lowers (h : m.WellFormed) (hl : Lowers m m') : m'.WellFormed :=
  hl.keeps (fun _ s hm => hm.splice s) (fun _ f hm _ => hm.remove f) (fun _ hm => hm) h

theorem WellFormed.edits (h : m.WellFormed) (he : Edits m m') : m'.WellFormed := by
  cases he with
  | add m f => exact h.add f
  | append m f is => exact h.append f is
  | remove m f => exact h.remove f
  | lowers hl => exact h.lowers hl

theorem WellFormed.history (h : m.WellFormed) (he : Relation.ReflTransGen Edits m m') :
    m'.WellFormed := by
  induction he with
  | refl => exact h
  | tail _ he ih => exact ih.edits he

/-- `m'` is well-formed, and each of its functions is one of `m` and shows the same as there. -/
structure Shows (m m' : Module) : Prop where
  wf : m'.WellFormed
  agree : ∀ f, m'.contains f → m.contains f ∧ m.AgreeOn m' f

theorem Shows.splice {m₀ : Module} (h : m₀.Shows m) (s : CallSiteId) :
    m₀.Shows (m.splice s).2 := by
  refine ⟨h.wf.splice s, fun f hf => ?_⟩
  have hlive : m.contains f := by
    rcases splice_cases m s with ⟨r, -, hs⟩ | ⟨caller, callee, g, -, -, -, hs⟩
    · rwa [hs] at hf
    · rwa [contains_of_header? (hs.header?_eq f)] at hf
  obtain ⟨h1, h2⟩ := h.agree f hlive
  exact ⟨h1, h2.trans (agreeOn_splice m s f)⟩

theorem Shows.remove {m₀ : Module} (h : m₀.Shows m) {g : FunctionId} (hg : m.Unused g) :
    m₀.Shows (m.remove g).2 := by
  refine ⟨h.wf.remove g, fun f hf => ?_⟩
  rw [contains_remove, Bool.and_eq_true, decide_eq_true_eq] at hf
  obtain ⟨h1, h2⟩ := h.agree f hf.1
  exact ⟨h1, h2.trans (agreeOn_remove hg hf.2)⟩

theorem Shows.lowers {m₀ : Module} (h : m₀.Shows m) (hl : Lowers m m') : m₀.Shows m' :=
  hl.keeps (fun _ s hm => hm.splice s) (fun _ _ hm hu => hm.remove hu) (fun _ hm => hm.wf) h

theorem shows_of_lowers (h : m.WellFormed) (hl : Relation.ReflTransGen Lowers m m') :
    m.Shows m' := by
  induction hl with
  | refl => exact ⟨h, fun f hf => ⟨hf, .refl m f⟩⟩
  | tail _ hs ih => exact ih.lowers hs

section Sample

/-- A leaf, a function that calls it, a function that calls itself, and a protected function that
uses the three. All but the last are marked for phase 1. -/
def sample : Module :=
  (build "sample" [
    (({ name := "leaf" } : Function).withPhase 1, some [.op "work", .ret]),
    (({ name := "middle" } : Function).withPhase 1,
      some [.call () (.direct ⟨0⟩), .call () .indirect, .ret]),
    (({ name := "loop" } : Function).withPhase 1, some [.call () (.direct ⟨2⟩)]),
    (({ name := "main" } : Function).withProtection,
      some [.ref ⟨0⟩, .call () (.direct ⟨1⟩), .call () (.direct ⟨2⟩), .ret])]).2

theorem sample_history : Relation.ReflTransGen Edits { name := "sample" } sample :=
  build_keeps (fun m f h => h.tail (.add m f)) (fun m f d h => h.tail (.append m f d)) .refl _

theorem sample_wellFormed : sample.WellFormed := .build _ _

end Sample

/-- The tables of a module agree with its slots, whatever its history. -/
theorem wellFormed_of_history (name : String)
    (h : Relation.ReflTransGen Edits ({ name } : Module) m) :
    m.WellFormed ∧ (m.functions.map (·.name)).Nodup ∧ (m.functions.flatMap (·.sites)).Nodup
      ∧ ∀ s f t, m.callAt? s = some (f, t) ↔ .call s t ∈ m.instrsOf f := by
  have hwf : m.WellFormed := (WellFormed.new name).history h
  exact ⟨hwf, hwf.names_nodup, hwf.handles_nodup, fun _ _ _ => hwf.callAt?_iff⟩

theorem wellFormed_of_history_sample :
    let m := (lower { phase := 1 } { target := sample }).run.target
    m.WellFormed ∧ (m.functions.map (·.name)).Nodup ∧ (m.functions.flatMap (·.sites)).Nodup
      ∧ ∀ s f t, m.callAt? s = some (f, t) ↔ .call s t ∈ m.instrsOf f :=
  wellFormed_of_history "sample"
    (sample_history.tail (.lowers (.lower { phase := 1 } { target := sample })))

/-- Lowering, in whatever way and however it ends, does not change what a function that is left
shows, nor whether its execution ends. -/
theorem lowering_keeps_meaning (h : m.WellFormed) (hl : Relation.ReflTransGen Lowers m m')
    {f : FunctionId} (hf : m'.contains f) :
    m.contains f ∧ (∀ p, m.Emits f p ↔ m'.Emits f p) ∧ (m.Finishes f ↔ m'.Finishes f) :=
  (shows_of_lowers h hl).agree f hf

/-- The function in the middle is inlined and removed, the loop stays, and nobody can tell. -/
theorem lowering_keeps_meaning_sample :
    let m := (lower { phase := 1 } { target := sample }).run.target
    m.functionIds = [⟨0⟩, ⟨2⟩, ⟨3⟩] ∧ (∀ p, sample.Emits ⟨3⟩ p ↔ m.Emits ⟨3⟩ p)
      ∧ (sample.Finishes ⟨3⟩ ↔ m.Finishes ⟨3⟩) :=
  ⟨by decide +kernel, (lowering_keeps_meaning sample_wellFormed
    (.single (.lower { phase := 1 } { target := sample })) (f := ⟨3⟩) (by decide +kernel)).2⟩

end Module

end PhasedInlining
