import PhasedInlining.Proofs.CallGraph.Exactness
import PhasedInlining.Proofs.Lowering.BottomUp

/-!
# Cycles after a bypass

To inline a call of `y` in `x` is to bypass `y`: what follows `y` now follows `x` at once, and the
step from `x` to `y` may be gone. A bypass can take `y` off the cycles it lies on, but it takes off
nothing else, and neither breaks up a cycle nor joins two. `KeepsCycles` says so of any number of
bypasses: what lies on a cycle is reached from where it was reached before
(`KeepsCycles.reached`), and of what lay on a cycle something is left on one
(`KeepsCycles.left`). So a cycle can be reached from where one could be reached before
(`KeepsCycles.reachesCycle_iff`).
-/

namespace PhasedInlining

open Relation (ReflTransGen TransGen)

variable {α : Type} {P : α → Prop} {r r' r'' : α → α → Prop} {a b x y : α}

/-- `r'` is `r` with what follows `y` following `x`, and possibly without the step from `x` to
`y`. -/
structure Bypasses (r r' : α → α → Prop) (x y : α) : Prop where
  ne : y ≠ x
  step : r x y
  origin : ∀ {a b}, r' a b → r a b ∨ a = x ∧ r y b
  kept : ∀ {a b}, r a b → (a = x ∧ b = y) ∨ r' a b
  copied : ∀ {b}, r y b → r' x b

namespace Bypasses

variable (h : Bypasses r r' x y)
include h

theorem within (hab : r' a b) : TransGen r a b := by
  rcases h.origin hab with hab | ⟨rfl, hyb⟩
  · exact .single hab
  · exact (TransGen.single h.step).tail hyb

theorem kept_of_ne (ha : a ≠ x) (hab : r a b) : r' a b :=
  (h.kept hab).resolve_left fun heq => ha heq.1

/-- A way that does not end at `y` need not pass it. -/
theorem transGen (hb : b ≠ y) (hab : TransGen r a b) : TransGen r' a b := by
  induction hab using TransGen.head_induction_on with
  | single hab => exact .single ((h.kept hab).resolve_left fun heq => hb heq.2)
  | head hac _ ih =>
    rcases h.kept hac with ⟨rfl, rfl⟩ | hac
    · obtain ⟨d, hyd, hdb⟩ := TransGen.head'_iff.1 ih
      have hxd := h.copied ((h.origin hyd).resolve_right fun heq => h.ne heq.1)
      exact TransGen.head'_iff.2 ⟨d, hxd, hdb⟩
    · exact ih.head hac

theorem transGen_of_cycle (hy : TransGen r' y y) (hab : TransGen r a y) : TransGen r' a y := by
  obtain ⟨z, hyz, hzy⟩ := TransGen.tail'_iff.1 hy
  by_cases hz : z = y
  · subst hz
    have hxz : r' x z := h.copied ((h.origin hzy).resolve_right fun heq => h.ne heq.1)
    refine TransGen.mono (fun c d hcd => ?_) _ _ hab
    rcases h.kept hcd with ⟨rfl, rfl⟩ | hcd
    · exact hxz
    · exact hcd
  · have hyz' : TransGen r' y z :=
      (Relation.reflTransGen_iff_eq_or_transGen.1 hyz).resolve_left hz
    have haz := hab.trans (TransGen.closed (fun _ _ => h.within) _ _ hyz')
    exact (h.transGen hz haz).tail hzy

end Bypasses

/-- `r'` has the cycles of `r`, but for elements in `P` that it may bypass. -/
structure KeepsCycles (P : α → Prop) (r r' : α → α → Prop) : Prop where
  within : ∀ {a b}, r' a b → TransGen r a b
  reached : ∀ {a b}, TransGen r' b b → TransGen r a b → TransGen r' a b
  loops : ∀ {a}, r a a → r' a a
  stays : ∀ {a}, TransGen r a a → ¬ P a → TransGen r' a a
  left : ∀ {a}, TransGen r a a → ∃ b, TransGen r' b b ∧ TransGen r a b ∧ TransGen r b a

theorem Bypasses.keepsCycles (h : Bypasses r r' x y) (hy : P y) : KeepsCycles P r r' := by
  refine ⟨h.within, fun {a b} hb hab => ?_, fun {a} ha => (h.kept ha).resolve_left ?_,
    fun {a} ha hP => h.transGen ?_ ha, fun {a} ha => ?_⟩
  · by_cases hby : b = y
    · subst hby
      exact h.transGen_of_cycle hb hab
    · exact h.transGen hby hab
  · rintro ⟨rfl, rfl⟩
    exact h.ne rfl
  · rintro rfl
    exact hP hy
  · by_cases hay : a = y
    · subst hay
      obtain ⟨z, haz, hza⟩ := TransGen.head'_iff.1 ha
      by_cases hz : z = a
      · subst hz
        exact ⟨z, .single (h.kept_of_ne h.ne haz), ha, ha⟩
      · have hza' : TransGen r z a :=
          (Relation.reflTransGen_iff_eq_or_transGen.1 hza).resolve_left (Ne.symm hz)
        exact ⟨z, h.transGen hz (hza'.tail haz), .single haz, hza'⟩
    · exact ⟨a, h.transGen hay ha, ha, ha⟩

namespace KeepsCycles

theorem refl (r : α → α → Prop) : KeepsCycles P r r :=
  ⟨.single, fun _ hab => hab, id, fun ha _ => ha, fun {a} ha => ⟨a, ha, ha, ha⟩⟩

variable (h : KeepsCycles P r r')
include h

theorem transGen (hab : TransGen r' a b) : TransGen r a b :=
  TransGen.closed (fun _ _ => h.within) _ _ hab

theorem trans (h' : KeepsCycles P r' r'') : KeepsCycles P r r'' := by
  refine ⟨fun hab => h.transGen (h'.within hab), fun hb hab => ?_, fun ha => h'.loops (h.loops ha),
    fun ha hP => ?_, fun ha => ?_⟩
  · exact h'.reached hb (h.reached (h'.transGen hb) hab)
  · exact h'.stays (h.stays ha hP) hP
  · obtain ⟨b, hb, hab, hba⟩ := h.left ha
    obtain ⟨c, hc, hbc, hcb⟩ := h'.left hb
    exact ⟨c, hc, hab.trans (h.transGen hbc), (h.transGen hcb).trans hba⟩

/-- What is left of a cycle is one cycle. -/
theorem cycle_iff (hb : TransGen r' b b) :
    TransGen r' b a ∧ TransGen r' a b ↔ TransGen r' a a ∧ TransGen r b a ∧ TransGen r a b := by
  constructor
  · rintro ⟨hba, hab⟩
    exact ⟨hab.trans hba, h.transGen hba, h.transGen hab⟩
  · rintro ⟨ha, hba, hab⟩
    exact ⟨h.reached ha hba, h.reached hb hab⟩

theorem reachesCycle_iff : ReachesCycle r' a ↔ ReachesCycle r a := by
  constructor
  · rintro ⟨b, hab, hb⟩
    refine ⟨b, Relation.reflTransGen_closed (fun _ _ hcd => ?_) _ _ hab, h.transGen hb⟩
    exact (h.within hcd).to_reflTransGen
  · rintro ⟨b, hab, hb⟩
    obtain ⟨c, hc, hbc, -⟩ := h.left hb
    exact ⟨c, (h.reached hc (hbc.trans_right hab)).to_reflTransGen, hc⟩

end KeepsCycles

namespace Module

variable {m m' : Module} {s : CallSiteId} {caller callee f g : FunctionId} {k : Function}

theorem calls_iff_mem_callees :
    m.Calls f g ↔ m.hasBody g ∧ g ∈ Body.callees (m.instrsOf f) := by
  rw [Calls, Body.mem_callees]

theorem Splices.bypasses (h : m.Splices s m' caller callee k) :
    Bypasses m.Calls m'.Calls caller callee := by
  obtain ⟨pre, post, hbody, -, hbody'⟩ := h.body
  have hcallee : m.hasBody callee := by simp [Module.hasBody, h.callee_eq, h.hasBody]
  have hold : ∀ c, c ∈ Body.callees (m.instrsOf caller)
      ↔ c = callee ∨ c ∈ Body.callees pre ++ Body.callees post := by
    intro c
    simp only [hbody, Body.callees_append, Body.callees_call_cons, List.mem_append, List.mem_cons]
    tauto
  have hnew : ∀ c, c ∈ Body.callees (m'.instrsOf caller)
      ↔ c ∈ Body.callees (m.instrsOf callee) ∨ c ∈ Body.callees pre ++ Body.callees post := by
    intro c
    simp only [hbody', Body.callees_append, Body.callees_issue, Body.callees_withoutReturns,
      instrsOf_of_function? h.callee_eq, List.mem_append]
    tauto
  have hsame : ∀ f, m'.hasBody f = m.hasBody f := fun f => hasBody_of_header? (h.header?_eq f)
  refine ⟨h.ne, ?_, ?_, ?_, ?_⟩ <;> simp only [calls_iff_mem_callees, hsame]
  · exact ⟨hcallee, (hold callee).2 (.inl rfl)⟩
  · rintro a b ⟨hb, hab⟩
    by_cases ha : a = caller
    · subst ha
      rw [hnew] at hab
      rw [hold]
      tauto
    · rw [h.instrsOf_other ha] at hab
      exact .inl ⟨hb, hab⟩
  · rintro a b ⟨hb, hab⟩
    by_cases ha : a = caller
    · subst ha
      rw [hold] at hab
      rw [hnew]
      tauto
    · rw [h.instrsOf_other ha]
      exact .inr ⟨hb, hab⟩
  · rintro b ⟨hb, hyb⟩
    exact ⟨hb, (hnew b).2 (.inl hyb)⟩

end Module

end PhasedInlining
