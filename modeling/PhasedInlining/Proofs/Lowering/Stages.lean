import PhasedInlining.Proofs.History

/-!
# The stages of a run

A run checks the module, inlines the phase and sweeps (`lower_stages`), whichever way it inlines.
Inlining keeps what is known of a function besides its body, and the sweep keeps bodies and takes
away whole functions (`Stages`). So a second run accepts what the first accepted, and its sweep
finds nothing to remove.
-/

namespace PhasedInlining

open CallSource Target

section Run

variable {σ : Type} [Target σ] (o : Options)

/-- A run up to where the calls to functions of the phase have been inlined. -/
def Options.inlineStage (r : Run σ) : Ending σ InlineReport :=
  (o.validate { r with log := {} }).bind fun r => o.inlinePhase (o.begin r).2 (o.begin r).1

theorem Options.inlineStage_ok {r r₁ : Run σ} {report : InlineReport} :
    o.inlineStage r = .ok (r₁, report) ↔ ∃ r₀, o.validate { r with log := {} } = .ok r₀
      ∧ r₀.target = r.target
      ∧ o.inlinePhase (Snapshot.ofSource r.target) (o.begin r₀).1 = .ok (r₁, report) := by
  rw [Options.inlineStage, bind_eq_ok]
  constructor
  · rintro ⟨r₀, hvalid, hinline⟩
    have htarget : r₀.target = r.target := (o.target_validate hvalid :)
    exact ⟨r₀, hvalid, htarget, by rwa [← htarget]⟩
  · rintro ⟨r₀, hvalid, htarget, hinline⟩
    rw [← htarget] at hinline
    exact ⟨r₀, hvalid, hinline⟩

theorem lower_stages {r r' : Run σ} {out : Outcome} :
    lower o r = .ok (r', out) ↔ ∃ r₁ report r₂ removed,
      let diagnosed := o.diagnose (Snapshot.ofSource r.target) report r₁
      o.inlineStage r = .ok (r₁, report) ∧ o.sweepPhase diagnosed.1 = .ok (r₂, removed)
        ∧ o.complete report diagnosed.2 removed r₂ = (r', out) := by
  simp only [lower_ok, o.inlineStage_ok]
  constructor
  · rintro ⟨r₀, r₁, report, r₂, removed, hvalid, hinline, hsweep, hcomplete⟩
    have htarget : r₀.target = r.target := (o.target_validate hvalid :)
    rw [htarget] at hinline hsweep hcomplete
    exact ⟨r₁, report, r₂, removed, ⟨r₀, hvalid, htarget, hinline⟩, hsweep, hcomplete⟩
  · rintro ⟨r₁, report, r₂, removed, ⟨r₀, hvalid, htarget, hinline⟩, hsweep, hcomplete⟩
    rw [← htarget] at hinline hsweep hcomplete
    exact ⟨r₀, r₁, report, r₂, removed, hvalid, hinline, hsweep, hcomplete⟩

end Run

/-- If functions are visited callees first, this stage is the visits. -/
theorem Options.inlineStage_bottomUp (o : Options) (ho : o.strategy = .bottomUp)
    {r r₁ : Run Module} {report : InlineReport} (h : o.inlineStage r = .ok (r₁, report)) :
    ∃ s₀ s : Inlining Module, s₀.target = r.target ∧ s₀.inlined = 0
      ∧ r.target.visitOrder.foldlM (Inlining.visit o.phase (Snapshot.ofSource r.target)) s₀ = .ok s
      ∧ r₁ = s.toRun ∧ report = s.report (Snapshot.ofSource r.target).drain := by
  obtain ⟨r₀, -, htarget, hinline⟩ := o.inlineStage_ok.1 h
  rw [Options.inlinePhase, ho] at hinline
  obtain ⟨s, hvisits, heq⟩ := map_eq_ok.1 hinline
  cases heq
  exact ⟨{ (o.begin r₀).1 with }, s, htarget, rfl, hvisits, rfl, rfl⟩

theorem Module.header?_splice (m : Module) (s : CallSiteId) (f : FunctionId) :
    (m.splice s).2.header? f = m.header? f := by
  rcases m.splice_cases s with ⟨_, -, hs⟩ | ⟨_, _, _, -, -, -, hs⟩
  · rw [hs]
  · exact hs.header?_eq f

/-- Of a module `m₀`, `m` is left by inlining and `m₁` by the sweep. -/
structure Stages (o : Options) (m₀ m m₁ : Module) : Prop where
  valid : ∀ f, m₀.contains f → o.Accepts m₀ f
  header : ∀ f, m.header? f = m₀.header? f
  prunes : m.Prunes m₁
  swept : o.sweeps → ∀ f, isRemovable o.phase m₁ f = .ok true → ¬ m₁.Unused f

theorem stages_of_lower {o : Options} {r r₁ r₂ : Run Module} {report : InlineReport}
    {removed : List RemovedFunction} (hwf : r.target.WellFormed)
    (hinlined : o.inlineStage r = .ok (r₁, report))
    (hsweep : o.sweepPhase (o.diagnose (Snapshot.ofSource r.target) report r₁).1
      = .ok (r₂, removed)) : Stages o r.target r₁.target r₂.target := by
  obtain ⟨r₀, hvalid, htarget, hinline⟩ := o.inlineStage_ok.1 hinlined
  have hstart : (o.begin r₀).1.target = r.target := htarget
  have hkeeps := o.inlinePhase_keeps
    (P := fun m : Module => m.WellFormed ∧ ∀ f, m.header? f = r.target.header? f)
    (fun m s hm => m.target_inline s ▸
      ⟨hm.1.splice s, fun f => (m.header?_splice s f).trans (hm.2 f)⟩)
    (Snapshot.ofSource r.target) (o.begin r₀).1 (by rw [hstart]; exact ⟨hwf, fun _ => rfl⟩)
  rw [hinline] at hkeeps
  obtain ⟨hwf₁, hheader⟩ := hkeeps
  have htarget₁ := o.target_diagnose (Snapshot.ofSource r.target) report r₁
  have hprunes : Keeps r₁.target.Prunes (.ok (r₂, removed)) := by
    rw [← hsweep]
    refine o.sweepPhase_keeps (fun r hr => ?_) _ (by rw [htarget₁]; exact .refl hwf₁)
    exact Sweep.sweep_keeps (fun _ _ _ hm hunused _ => hm.remove hunused) r hr.wf hr
  refine ⟨fun f hf => ?_, hheader, hprunes, fun hsweeps => ?_⟩
  · exact o.validate_ok.1 ⟨r₀, hvalid⟩ f (hwf.mem_functionIds.2 hf)
  · rw [Options.sweepPhase, if_pos hsweeps] at hsweep
    exact fun f => Sweep.sweep_used (by rw [htarget₁]; exact hwf₁) hsweep

namespace Stages

variable {o : Options} {m₀ m m₁ : Module} (h : Stages o m₀ m m₁) {f : FunctionId}
include h

theorem header?_eq (hf : m₁.contains f) : m₁.header? f = m₀.header? f := by
  rw [Module.header?, h.prunes.function?_eq f hf, ← Module.header?, h.header]

theorem instrsOf_eq (hf : m₁.contains f) : m₁.instrsOf f = m.instrsOf f := by
  rw [Module.instrsOf, h.prunes.function?_eq f hf, ← Module.instrsOf]

theorem mem_instrsOf {i : Instr CallSiteId} :
    i ∈ m₁.instrsOf f ↔ i ∈ m.instrsOf f ∧ m₁.contains f := by
  constructor
  · intro hi
    have hf := Module.contains_of_mem hi
    rw [h.instrsOf_eq hf] at hi
    exact ⟨hi, hf⟩
  · rintro ⟨hi, hf⟩
    rwa [h.instrsOf_eq hf]

theorem accepts (hf : m₁.contains f) : o.Accepts m₁ f := by
  have hhead := h.header?_eq hf
  have hf₀ : m₀.contains f := by rwa [Module.contains_of_header? hhead] at hf
  unfold Options.Accepts
  rw [Module.isMarked_of_header? hhead, Module.isProtected_of_header? hhead]
  exact h.valid f hf₀

theorem sweepPhase_idle {r : Run Module} (hr : r.target = m₁) :
    o.sweepPhase r = .ok (r, []) := by
  unfold Options.sweepPhase
  split_ifs with hsweeps
  · refine Sweep.sweep_idle (hr ▸ h.prunes.wf) (fun f hf => ?_) (hr ▸ h.swept hsweeps)
    obtain ⟨marked, hmarked, -⟩ := h.accepts (f := f) (hr ▸ hf)
    exact ⟨_, map_eq_ok.2 ⟨marked, hr ▸ hmarked, rfl⟩⟩
  · rfl

end Stages

end PhasedInlining
