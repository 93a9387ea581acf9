import PhasedInlining.Proofs.Lowering.Stages

/-!
# What lowering callees first leaves

`lower_leaves` says how the module after a run relates to the one before: all functions that the
worklist hands out have been visited, then unused functions have been removed. It follows that the
calls of the phase's functions that are left are calls that cannot be inlined, and that a function
of the phase that could have been inlined everywhere is left only because it is referred to.
-/

namespace PhasedInlining

open CallSource Target

theorem Options.unresolved_diagnose {σ : Type} [Target σ] (o : Options) (snapshot : Snapshot)
    (report : InlineReport) (r : Run σ) :
    (o.diagnose snapshot report r).2.unresolved = report.unresolved := by
  unfold diagnose
  simp only []
  split_ifs <;> rfl

/-- What a run that lowers callees first has done to a module. -/
structure Leaves (o : Options) (m₀ m₁ : Module) (out : Outcome) (m : Module) (log : EventLog) :
    Prop extends Stages o m₀ m m₁ where
  visited : Visited o.phase m₀ m₀.visitOrder m log
  grows : log.Grows out.log
  unresolved : out.residue.unresolved = (Snapshot.ofSource m₀).drain.unresolved

theorem lower_leaves {o : Options} (ho : o.strategy = .bottomUp) {r r' : Run Module}
    {out : Outcome} (hwf : r.target.WellFormed) (h : lower o r = .ok (r', out)) :
    ∃ m log, Leaves o r.target r'.target out m log := by
  obtain ⟨r₁, report, r₂, removed, hinlined, hsweep, hcomplete⟩ := (lower_stages o).1 h
  have hstages := stages_of_lower hwf hinlined hsweep
  obtain ⟨s₀, s, htarget, -, hvisits, rfl, rfl⟩ := o.inlineStage_bottomUp ho hinlined
  cases hcomplete
  have hvisited : Visited o.phase r.target r.target.visitOrder s.target s.log :=
    visited_foldlM hwf htarget hvisits
  refine ⟨s.target, s.log, hstages, hvisited, ?_, o.unresolved_diagnose _ _ _⟩
  exact (o.grows_diagnose _ _ _).trans ((o.grows_sweepPhase hsweep).trans
    (EventLog.grows_record _ _))

namespace Leaves

variable {o : Options} {m₀ m₁ m : Module} {out : Outcome} {log : EventLog}
  (hl : Leaves o m₀ m₁ out m log)
include hl

/-- A call of a function of the phase is left only if it cannot be inlined, or if the function is on
a call cycle or calls into one. -/
theorem call_left (h₀ : m₀.WellFormed) {f y : FunctionId} {x : CallSiteId} {g : Function}
    (hx : .call x (.direct y) ∈ m₁.instrsOf f) (hg : m₁.function? y = some g) (hbody : g.hasBody)
    (hmarked : isMarked o.phase m₁ y = .ok true) :
    g.flags.noInline ∨ y ∈ out.residue.unresolved ∨ m₁.Exhausted out.log y := by
  have hy : m₁.contains y := Module.contains_iff.2 ⟨g, hg⟩
  have hhead := hl.header?_eq hy
  rw [hl.unresolved]
  rw [hl.instrsOf_eq (Module.contains_of_mem hx)] at hx
  rw [Module.isMarked_of_header? hhead] at hmarked
  have hbody₀ : m₀.hasBody y := by
    rw [← Module.hasBody_of_header? hhead]
    simp [Module.hasBody, hg, hbody]
  rcases h₀.hasBody_iff_drained.1 hbody₀ with hready | hunresolved
  · rcases hl.visited.stuck hx hready hmarked with ⟨g', hg', hno⟩ | ⟨hroom, hstarved⟩
    · rw [← hl.prunes.function?_eq y hy, hg, Option.some.injEq] at hg'
      exact .inl (hg' ▸ hno)
    · refine .inr (.inr ⟨?_, hstarved.grows hl.grows⟩)
      rwa [hl.instrsOf_eq hy, Module.hasRoomFor, hl.prunes.nextSite_eq]
  · exact .inr (.inl hunresolved)

end Leaves

/-- Lowering callees first inlines all calls of the phase's functions but those of functions that
must not be copied or could not be resolved, as long as handles have not run out. With sweeping on,
what could be inlined is left only where it is referred to. -/
theorem lower_complete {o : Options} (ho : o.strategy = .bottomUp) {r r' : Run Module}
    {out : Outcome} (hwf : r.target.WellFormed) (h : lower o r = .ok (r', out)) :
    (∀ f y x g, .call x (.direct y) ∈ r'.target.instrsOf f → r'.target.function? y = some g →
      g.hasBody → isMarked o.phase r'.target y = .ok true → ¬ r'.target.Exhausted out.log y →
        g.flags.noInline ∨ y ∈ out.residue.unresolved)
    ∧ (o.sweeps → ∀ y g, r.target.function? y = some g → isRemovable o.phase r.target y = .ok true →
      g.hasBody → g.flags.noInline = false → y ∉ out.residue.unresolved →
        ¬ r'.target.Exhausted out.log y → r'.target.contains y →
          ∃ f, .ref y ∈ r'.target.instrsOf f) := by
  obtain ⟨m, log, hl⟩ := lower_leaves ho hwf h
  refine ⟨fun f y x g hx hg hbody hmarked hroom => ?_,
    fun hsweeps y g hg hremovable hbody hno hunresolved hroom hlive => ?_⟩
  · rcases hl.call_left hwf hx hg hbody hmarked with h | h | h
    · exact .inl h
    · exact .inr h
    · exact absurd h hroom
  · have hhead := hl.header?_eq hlive
    have hremovable' : isRemovable o.phase r'.target y = .ok true := by
      rwa [isRemovable, Module.isMarked_of_header? hhead, Module.isProtected_of_header? hhead]
    have hused := hl.swept hsweeps y hremovable'
    simp only [Module.Unused, not_forall, not_not] at hused
    obtain ⟨f, hf⟩ := hused
    rcases Body.mem_uses.1 hf with ⟨x, hx⟩ | href
    · obtain ⟨g', hg'⟩ := Module.contains_iff.1 hlive
      obtain ⟨_, hg₀, hgg'⟩ := Module.function?_of_header? hhead hg'
      cases hg.symm.trans hg₀
      rcases hl.call_left hwf hx hg' (by rwa [Function.hasBody_of_header hgg'])
        (isMarked_of_isRemovable hremovable') with h | h | h
      · rw [Function.flags_of_header hgg', hno] at h
        cases h
      · exact absurd h hunresolved
      · exact absurd h hroom
    · exact ⟨f, href⟩

/-- Of the sample, the call of the loop is left because the loop cannot be resolved, and the leaf is
left because it is referred to. -/
theorem lower_complete_sample : ∃ r' out,
    lower { phase := 1 } { target := Module.sample } = .ok (r', out)
      ∧ .call ⟨4⟩ (.direct ⟨2⟩) ∈ r'.target.instrsOf ⟨3⟩ ∧ ⟨2⟩ ∈ out.residue.unresolved
      ∧ r'.target.contains ⟨0⟩ ∧ ∃ f, .ref ⟨0⟩ ∈ r'.target.instrsOf f := by
  have hrun : (lower { phase := 1 } { target := Module.sample }).toOption.any (fun e =>
      .call ⟨4⟩ (.direct ⟨2⟩) ∈ e.1.target.instrsOf ⟨3⟩ ∧ e.1.target.contains ⟨0⟩
        ∧ (e.1.target.function? ⟨2⟩).any (·.isInlinable)
        ∧ (isMarked 1 e.1.target ⟨2⟩).toOption = some true ∧ ⟨0⟩ ∉ e.2.residue.unresolved
        ∧ ¬ e.2.log.Starved ⟨0⟩ ∧ ¬ e.2.log.Starved ⟨2⟩) = true := by
    decide +kernel
  rcases h : lower { phase := 1 } { target := Module.sample } with halt | ⟨r', out⟩
  · simp [h, Except.toOption] at hrun
  rw [h] at hrun
  obtain ⟨hcall, hlive, hinlinable, hmarked, hresolved, hleaf, hloop⟩ := of_decide_eq_true hrun
  obtain ⟨hcalls, hrefs⟩ :=
    lower_complete (r := { target := Module.sample }) rfl Module.sample_wellFormed h
  refine ⟨r', out, rfl, hcall, ?_, hlive, ?_⟩
  · rcases hg : r'.target.function? ⟨2⟩ with _ | g <;> simp [hg, Function.isInlinable] at hinlinable
    have hmarked' : isMarked 1 r'.target ⟨2⟩ = .ok true := by
      rcases hm : isMarked 1 r'.target ⟨2⟩ with fault | b <;> simp_all [Except.toOption]
    refine (hcalls ⟨3⟩ ⟨2⟩ ⟨4⟩ g hcall hg hinlinable.1 hmarked'
      fun hroom => hloop hroom.2).resolve_left ?_
    simp [hinlinable.2]
  · have hg : ∃ g, Module.sample.function? ⟨0⟩ = some g ∧ g.hasBody ∧ g.flags.noInline = false :=
      ⟨_, rfl, by decide +kernel, by decide +kernel⟩
    obtain ⟨g, hg, hbody, hno⟩ := hg
    exact hrefs rfl ⟨0⟩ g hg (by decide +kernel) hbody hno hresolved
      (fun hroom => hleaf hroom.2) hlive

end PhasedInlining
