import PhasedInlining.Proofs.Lowering.Completeness

/-!
# Lowering again

A second run of lowering callees first finds nothing to do. The calls of the phase's functions that
the first run has left cannot be inlined (`Leaves.call_left`), or go to functions that it could not
resolve. Of these, each that is left still calls another one that is left, so the second run cannot
resolve them either (`Leaves.not_mem_visitOrder`). What could be removed has been removed.
-/

namespace PhasedInlining

open CallSource Target

namespace Inlining

section Idle

variable {phase : Nat} {m : Module}

/-- So far nothing has been inlined into `m`. -/
def Idle (m : Module) (s : Inlining Module) : Prop := s.target = m ∧ s.inlined = 0

theorem Idle.attempt {s : Inlining Module} (h : s.Idle m) (callee : FunctionId)
    {call : FunctionId × CallSiteId} (hcall : ∃ reason, m.spliceable call.2 = .error reason) :
    (s.attempt phase callee call).Idle m := by
  obtain ⟨ht, hi⟩ := h
  cases attempt_cases phase callee s call with
  | stale _ target inlined => exact ⟨target.trans ht, inlined.trans hi⟩
  | refused _ _ _ target inlined _ => exact ⟨target.trans ht, inlined.trans hi⟩
  | done caller g hok _ =>
    obtain ⟨reason, hreason⟩ := hcall
    rw [ht] at hok
    cases hok.symm.trans hreason

theorem Idle.visit {s : Inlining Module} (h : s.Idle m) {snapshot : Snapshot} {f : FunctionId}
    {marked : Bool} (hmarked : isMarked phase m f = .ok marked)
    (hf : marked → ∀ call ∈ snapshot.callsTo f, ∃ reason, m.spliceable call.2 = .error reason) :
    ∃ s', s.visit phase snapshot f = .ok s' ∧ s'.Idle m := by
  rw [← h.1] at hmarked
  refine ⟨_, map_eq_ok.2 ⟨marked, by rw [hmarked]; rfl, rfl⟩, ?_⟩
  split_ifs with hm
  · exact List.foldlRecOn (motive := Idle m) _ _ h fun s hs call hcall =>
      hs.attempt f (hf hm call hcall)
  · exact h

theorem Idle.foldlM_visit {snapshot : Snapshot} (fs : List FunctionId) {s : Inlining Module}
    (h : s.Idle m)
    (hfs : ∀ f ∈ fs, ∃ marked, isMarked phase m f = .ok marked ∧ (marked →
      ∀ call ∈ snapshot.callsTo f, ∃ reason, m.spliceable call.2 = .error reason)) :
    ∃ s', fs.foldlM (Inlining.visit phase snapshot) s = .ok s' ∧ s'.Idle m := by
  refine foldlM_ok fs (fun s f hf hs => ?_) h
  obtain ⟨marked, hmarked, hcalls⟩ := hfs f hf
  exact hs.visit hmarked hcalls

end Idle

end Inlining

namespace Leaves

variable {o : Options} {m₀ m₁ m : Module} {out : Outcome} {log : EventLog}
  (hl : Leaves o m₀ m₁ out m log) (h₀ : m₀.WellFormed) {f : FunctionId}
include hl h₀

/-- What the run has not resolved and not removed still calls something of this kind. -/
theorem unresolved_calls (hf : m₁.contains f) (hu : f ∈ out.residue.unresolved) :
    ∃ x c, .call x (.direct c) ∈ m₁.instrsOf f ∧ m₁.hasBody c
      ∧ m₁.contains c ∧ c ∈ out.residue.unresolved := by
  rw [hl.unresolved] at hu ⊢
  obtain ⟨x, c, hc, hx₀⟩ := h₀.unresolved_calls hu
  have hx : .call x (.direct c) ∈ m₁.instrsOf f := by
    rw [hl.instrsOf_eq hf]
    exact hl.visited.kept hx₀
      (Snapshot.not_mem_ready_of_unresolved (Snapshot.records_ofSource m₀) hc)
  have hbody₀ : m₀.hasBody c := h₀.hasBody_iff_drained.2 (.inr hc)
  have hlive : m₁.contains c := by
    refine hl.prunes.closed (f := f) (Body.mem_uses.2 (.inl ⟨x, hx⟩)) ?_
    rw [Module.contains_of_header? (hl.visited.header c)]
    exact Module.contains_of_hasBody hbody₀
  refine ⟨x, c, hx, ?_, hlive, hc⟩
  rwa [Module.hasBody_of_header? (hl.header?_eq hlive)]

/-- What the run has not resolved, no later run resolves. -/
theorem not_mem_visitOrder (hf : m₁.contains f) (hu : f ∈ out.residue.unresolved) :
    f ∉ m₁.visitOrder := by
  refine hl.prunes.wf.not_mem_drain
    (U := fun f => m₁.contains f ∧ f ∈ out.residue.unresolved) ?_ ⟨hf, hu⟩
  rintro f ⟨hf, hu⟩
  exact hl.unresolved_calls h₀ hf hu

theorem spliceable_error (hf : f ∈ m₁.visitOrder) (hmarked : isMarked o.phase m₁ f = .ok true)
    {call : FunctionId × CallSiteId} (hcall : call ∈ (Snapshot.ofSource m₁).callsTo f) :
    ∃ reason, m₁.spliceable call.2 = .error reason := by
  have hwf := hl.prunes.wf
  obtain ⟨caller, x⟩ := call
  obtain ⟨hbody, hx⟩ := (Snapshot.mem_callsTo_ofModule hwf).1 hcall
  rcases hs : m₁.spliceable x with reason | ⟨k, g⟩
  · exact ⟨reason, rfl⟩
  obtain ⟨c, hcallAt, -, hg, hgbody, hno, hroom⟩ := Module.spliceable_ok.1 hs
  cases hcallAt.symm.trans (hwf.callAt?_iff.2 hx)
  rcases hl.call_left h₀ hx hg hgbody hmarked with h | h | ⟨h, -⟩
  · cases hno.symm.trans h
  · exact absurd hf (hl.not_mem_visitOrder h₀ (Module.contains_of_hasBody hbody) h)
  · rw [Module.instrsOf_of_function? hg] at h
    cases hroom.symm.trans h

end Leaves

/-- Lowering callees first a second time changes nothing, whatever events and lines the second run
starts from. -/
theorem lower_idempotent {o : Options} (ho : o.strategy = .bottomUp) {r r₁ : Run Module}
    {out : Outcome} (hwf : r.target.WellFormed) (h : lower o r = .ok (r₁, out)) {r₂ : Run Module}
    (hr₂ : r₂.target = r₁.target) :
    ∃ r₃ out₃, lower o r₂ = .ok (r₃, out₃) ∧ out₃.changed = false ∧ out₃.inlined = 0
      ∧ out₃.removed = [] ∧ r₃.target = r₁.target := by
  obtain ⟨m, log, hl⟩ := lower_leaves ho hwf h
  have hwf₁ := hl.prunes.wf
  obtain ⟨r₀, hvalid⟩ : ∃ r₀, o.validate { r₂ with log := {} } = .ok r₀ := by
    refine o.validate_ok.2 fun f hf => ?_
    simp only [hr₂] at hf ⊢
    exact hl.accepts (hwf₁.mem_functionIds.1 hf)
  have hr₀ : r₀.target = r₁.target := by
    have := o.validate_ends { r₂ with log := {} }
    rw [hvalid] at this
    exact Eq.trans this hr₂
  obtain ⟨s, hvisits, hs, hinlined⟩ : ∃ s, r₁.target.visitOrder.foldlM
      (Inlining.visit o.phase (Snapshot.ofSource r₁.target)) { (o.begin r₀).1 with } = .ok s
        ∧ s.Idle r₁.target := by
    refine Inlining.Idle.foldlM_visit _ ⟨hr₀, rfl⟩ fun f hf => ?_
    have hlive : r₁.target.contains f :=
      Module.contains_of_hasBody (hwf₁.hasBody_iff_drained.2 (.inl hf))
    obtain ⟨marked, hmarked, -⟩ := hl.accepts hlive
    refine ⟨marked, hmarked, fun hm call hcall => hl.spliceable_error hwf hf ?_ hcall⟩
    rw [hmarked, hm]
  have hsweep : o.sweepPhase (o.diagnose (Snapshot.ofSource r₁.target)
      (s.report (Snapshot.ofSource r₁.target).drain) s.toRun).1 = .ok (_, []) :=
    hl.sweepPhase_idle (by rw [o.target_diagnose]; exact hs)
  rw [← hr₀] at hvisits hsweep
  refine ⟨_, _, (lower_bottomUp_ok o ho).2 ⟨r₀, s, _, [], hvalid, hvisits, hsweep, rfl⟩, ?_,
    hinlined, rfl, ?_⟩
  · change (decide (0 < s.inlined) || false) = false
    rw [hinlined]
    rfl
  · simpa using hs

/-- The first run changes the sample and leaves its loop; the second changes nothing. -/
theorem lower_idempotent_sample : ∃ r₁ out₁,
    lower { phase := 1 } { target := Module.sample } = .ok (r₁, out₁) ∧ out₁.changed
      ∧ out₁.residue.unresolved = [⟨2⟩, ⟨3⟩]
      ∧ ∃ r₃ out₃, lower { phase := 1 } { target := r₁.target } = .ok (r₃, out₃)
        ∧ out₃.changed = false ∧ out₃.inlined = 0 ∧ out₃.removed = []
        ∧ r₃.target = r₁.target := by
  have hrun : (lower { phase := 1 } { target := Module.sample }).toOption.any (fun e =>
      e.2.changed ∧ e.2.residue.unresolved = [⟨2⟩, ⟨3⟩]) = true := by
    decide +kernel
  rcases h : lower { phase := 1 } { target := Module.sample } with halt | ⟨r₁, out₁⟩
  · simp [h, Except.toOption] at hrun
  rw [h] at hrun
  obtain ⟨hchanged, hunresolved⟩ := of_decide_eq_true hrun
  exact ⟨r₁, out₁, rfl, hchanged, hunresolved,
    lower_idempotent (r := { target := Module.sample }) rfl Module.sample_wellFormed h rfl⟩

end PhasedInlining
