import PhasedInlining.Proofs.Lifetimes
import PhasedInlining.Proofs.Lowering.Frame
import PhasedInlining.Proofs.Splicing

/-!
# Whether a run has changed anything

Both ways of inlining a phase are a row of requests to inline a call, and count those that are
granted (`Asks`). A request that is refused leaves the module as it is. One that is granted takes a
call away, and its handle will never lead to a call again, whatever is copied and removed later
(`Module.Loses`). So no row of splices and removals comes back to the module it began with, and what
a run says about having changed it is exact (`changed_exact`).
-/

namespace PhasedInlining

open CallSource Target
open Relation (ReflTransGen)

section Requests

variable {σ : Type} [Target σ] {phase : Nat}

/-- A request to inline a call, with the number of requests granted before and after it. -/
inductive Asks : Nat × σ → Nat × σ → Prop
  | done {n : Nat} {t : σ} {site : CallSiteId} (h : (inline t site).1 = .done) :
    Asks (n, t) (n + 1, (inline t site).2)
  | refused {n : Nat} {t : σ} {site : CallSiteId} (h : (inline t site).1 ≠ .done) :
    Asks (n, t) (n, (inline t site).2)

/-- Getting from one state to the other, inlining has made a row of requests. -/
def Inlining.Asked (s s' : Inlining σ) : Prop :=
  ReflTransGen Asks (s.inlined, s.target) (s'.inlined, s'.target)

theorem Inlining.asks_of_done {s s₁ : Inlining σ} {site : CallSiteId}
    (h : s.change (inline · site) = (.done, s₁)) :
    Asks (s.inlined, s.target) (s₁.inlined + 1, s₁.target) := by
  obtain ⟨hdone, rfl⟩ := Prod.mk.inj h
  exact .done hdone

theorem Inlining.asks_of_refused {s s₁ : Inlining σ} {site : CallSiteId} {reason : String}
    (h : s.change (inline · site) = (.refused reason, s₁)) :
    Asks (s.inlined, s.target) (s₁.inlined, s₁.target) := by
  obtain ⟨hrefused, rfl⟩ := Prod.mk.inj h
  exact .refused fun hdone => nomatch hrefused.symm.trans hdone

theorem Inlining.asked_attempt (callee : FunctionId) (s : Inlining σ)
    (call : FunctionId × CallSiteId) : s.Asked (s.attempt phase callee call) := by
  unfold attempt
  simp only []
  split_ifs
  · split <;> rename_i hs
    · exact .single (asks_of_done hs)
    · exact .single (asks_of_refused hs :)
  · exact .refl

theorem Inlining.asked_visit {snapshot : Snapshot} {s s' : Inlining σ} {callee : FunctionId}
    (h : s.visit phase snapshot callee = .ok s') : s.Asked s' := by
  obtain ⟨marked, -, rfl⟩ := map_eq_ok.1 h
  split_ifs
  · exact List.foldlRecOn (motive := s.Asked) _ _ .refl
      fun s₁ hs call _ => hs.trans (asked_attempt callee s₁ call)
  · exact .refl

theorem Scan.asked_attempt (number : Nat) (s : Scan σ) (caller callee : FunctionId)
    (site : CallSiteId) :
    s.toInlining.Asked (s.attempt phase number caller callee site).toInlining := by
  unfold attempt
  split_ifs
  · exact .refl
  · split <;> rename_i hs <;> have hi := congrArg (fun e => (e.1, e.2.toInlining)) hs
    · exact .single (Inlining.asks_of_done hi)
    · exact .single (Inlining.asks_of_refused (s := s.toInlining) hi :)

theorem Scan.asked_visit {number : Nat} {s s' : Scan σ} {e : CallEdge}
    (h : s.visit phase number e = .ok s') : s.toInlining.Asked s'.toInlining := by
  unfold visit at h
  split at h
  · cases h
    exact .refl
  · split_ifs at h
    · cases h
      exact .refl
    · obtain ⟨marked, -, rfl⟩ := map_eq_ok.1 h
      split_ifs
      · exact asked_attempt _ _ _ _ _
      · exact .refl

theorem Scan.asked_repeated {cap : Nat} {r : Run σ} {report : InlineReport} :
    ∀ {left : Nat} {s : Scan σ}, s.repeated phase cap left = .ok (r, report) →
      ReflTransGen Asks (s.inlined, s.target) (report.inlined, r.target)
  | left + 1, s, h => by
    unfold repeated at h
    rcases honce : s.once phase (cap - left) with halt | s₁ <;> rw [honce] at h
    · cases h
    · have hs₁ : s.toInlining.Asked s₁.toInlining := by
        refine foldlM_keeps (f := visit phase (cap - left))
          (I := fun _ (s₁ : Scan σ) => s.toInlining.Asked s₁.toInlining)
          (fun _ hs hv => hs.trans (asked_visit hv)) ?_ honce
        exact .refl
      simp only [] at h
      split_ifs at h
      · exact hs₁.trans (asked_repeated h)
      · cases h
        exact hs₁

/-- Inlining a phase is a row of requests to inline a call, and it reports how many of them were
granted. -/
theorem Options.inlinePhase_asked (o : Options) {snapshot : Snapshot} {r r' : Run σ}
    {report : InlineReport} (h : o.inlinePhase snapshot r = .ok (r', report)) :
    ReflTransGen Asks (0, r.target) (report.inlined, r'.target) := by
  unfold inlinePhase at h
  split at h
  · obtain ⟨s, hvisits, heq⟩ := map_eq_ok.1 h
    cases heq
    exact foldlM_keeps (I := fun _ (s : Inlining σ) => Inlining.Asked { r with } s)
      (fun _ hs hv => hs.trans (Inlining.asked_visit hv)) .refl hvisits
  · exact Scan.asked_repeated h

end Requests

namespace Module

variable {m m₁ m' : Module} {n : Nat}

/-- A call of `m` is gone from `m'` for good. -/
def Loses (m m' : Module) : Prop :=
  ∃ s c, m.callAt? s = some c ∧ m'.callAt? s = none ∧ s.value < m'.nextSite

theorem Loses.ages (h : m.Loses m₁) (h₁ : m₁.Ages m') : m.Loses m' := by
  obtain ⟨s, c, hc, hnone, hs⟩ := h
  have hs' : m'.callAt? s = none := (h₁.callAt?_eq hs).elim id fun heq => heq.trans hnone
  exact ⟨s, c, hc, hs', hs.trans_le h₁.nextSite_le⟩

theorem Loses.inline (h : m.Loses m₁) (s : CallSiteId) : m.Loses (Target.inline m₁ s).2 := by
  rw [target_inline]
  exact h.ages (.splice m₁ s)

theorem loses_inline (hwf : m.WellFormed) {s : CallSiteId} (h : (inline m s).1 = .done) :
    m.Loses (inline m s).2 := by
  obtain ⟨caller, g, hok⟩ := inline_done.1 h
  obtain ⟨callee, hcall, hne, hg, hbody, hno, hroom⟩ := spliceable_ok.1 hok
  have hgone := (inlines_inline hwf ⟨hcall, hne, hg, hbody, hno⟩ hroom).site_gone
  have hlt := hwf.site_lt_of_mem (hwf.callAt?_iff.1 hcall)
  refine ⟨s, _, hcall, hgone, ?_⟩
  rw [target_inline]
  exact hlt.trans_le (Ages.splice m s).nextSite_le

/-- A row of requests of which none is granted leaves the module as it is. Otherwise the first that
is granted takes a call away for good. -/
theorem asked_cases (hwf : m.WellFormed) (h : ReflTransGen Asks (0, m) (n, m')) :
    n = 0 ∧ m' = m ∨ 0 < n ∧ m.Loses m' := by
  suffices hall : ∀ p, ReflTransGen Asks (0, m) p → p.1 = 0 ∧ p.2 = m ∨ 0 < p.1 ∧ m.Loses p.2 from
    hall _ h
  intro p hp
  induction hp with
  | refl => exact .inl ⟨rfl, rfl⟩
  | tail _ hask ih =>
    cases hask with
    | done hdone =>
      rcases ih with ⟨-, rfl⟩ | ⟨-, hlost⟩
      · exact .inr ⟨Nat.succ_pos _, loses_inline hwf hdone⟩
      · exact .inr ⟨Nat.succ_pos _, hlost.inline _⟩
    | refused hrefused =>
      rw [inline_refused hrefused]
      exact ih

/-- A call that is gone has been in a body. -/
theorem Loses.function?_ne (h : m.Loses m') (hwf : m.WellFormed) (hwf' : m'.WellFormed) :
    ∃ f, m'.function? f ≠ m.function? f := by
  obtain ⟨s, c, hc, hnone, -⟩ := h
  obtain ⟨f, t⟩ := c
  refine ⟨f, fun heq => ?_⟩
  rw [hwf.callAt?_iff] at hc
  have hc' : .call s t ∈ m'.instrsOf f := by
    rw [instrsOf, heq]
    exact hc
  rw [← hwf'.callAt?_iff, hnone] at hc'
  cases hc'

end Module

/-- A sweep that removes nothing changes nothing. -/
theorem Options.target_sweepPhase (o : Options) {r r' : Run Module} (hwf : r.target.WellFormed)
    (h : o.sweepPhase r = .ok (r', [])) : r'.target = r.target := by
  unfold sweepPhase at h
  split_ifs at h
  · obtain ⟨s, hvisits, heq⟩ := map_eq_ok.1 h
    obtain ⟨rfl, hremoved⟩ := Prod.mk.inj heq
    have hends := Sweep.visitFrom_ends
      (P := fun s : Sweep Module => s.removed.toList = [] → s.target = r.target)
      (fun s f _ _ _ (hf : isRemovable o.phase s.target f = .ok true) hempty => by
        rw [Sweep.removed_remove _ (Module.contains_of_isRemovable hf)] at hempty
        simp at hempty)
      _ 0 (Sweep.start r) (Sweep.inv_start r hwf) (fun _ => rfl)
      (Nat.le_of_eq (Nat.zero_add _).symm)
    rw [hvisits] at hends
    exact hends.1 hremoved
  · cases h
    rfl

theorem Module.Accounts.function?_ne {m m' : Module} {removed : List RemovedFunction}
    (h : m.Accounts m' removed) (hremoved : removed ≠ []) :
    ∃ f, m'.function? f ≠ m.function? f := by
  obtain ⟨k, hk⟩ := List.exists_mem_of_ne_nil removed hremoved
  obtain ⟨f, name⟩ := k
  obtain ⟨hgone, g, hg, -⟩ := h.mem_iff.1 hk
  refine ⟨f, fun heq => ?_⟩
  rw [Module.contains, heq, hg] at hgone
  cases hgone

/-- A run has changed nothing and says so, or says that it has changed a function, and has. -/
theorem lower_changed_cases (o : Options) {r r' : Run Module} {out : Outcome}
    (hwf : r.target.WellFormed) (h : lower o r = .ok (r', out)) :
    out.changed = false ∧ r'.target = r.target
      ∨ out.changed ∧ ∃ f, r'.target.function? f ≠ r.target.function? f := by
  have hwf' := hwf.lowers (.lower o r)
  have haccounts := lower_accounts o hwf h
  rw [h] at hwf'
  obtain ⟨r₁, report, r₂, removed, hinlined, hsweep, hcomplete⟩ := (lower_stages o).1 h
  cases hcomplete
  obtain ⟨r₀, -, htarget, hinline⟩ := o.inlineStage_ok.1 hinlined
  have hasked := o.inlinePhase_asked hinline
  rw [show (o.begin r₀).1.target = r.target from htarget] at hasked
  have hdiagnosed := o.target_diagnose (Snapshot.ofSource r.target) report r₁
  rcases Module.asked_cases hwf hasked with ⟨hnone, hsame⟩ | ⟨hpos, hlost⟩
  · by_cases hremoved : removed = []
    · subst hremoved
      rw [hsame] at hdiagnosed
      refine .inl ⟨by simp [InlineReport.changed, hnone], ?_⟩
      exact (o.target_sweepPhase (by rwa [hdiagnosed]) hsweep).trans hdiagnosed
    · refine .inr ⟨?_, haccounts.function?_ne hremoved⟩
      simp [hremoved]
  · have hkeeps := o.sweepPhase_keeps (P := r.target.Loses)
      (fun s hs => sweep_keeps_of_erase (fun m f hm => hm.ages (.remove m f)) s hs) _
      (hdiagnosed ▸ hlost)
    rw [hsweep] at hkeeps
    refine .inr ⟨?_, Module.Loses.function?_ne hkeeps hwf hwf'⟩
    simp [InlineReport.changed, hpos]

/-- A run says that it has changed nothing exactly if it leaves the module as it was. If it says
otherwise, a function is gone or has another body. -/
theorem changed_exact (o : Options) {r r' : Run Module} {out : Outcome}
    (hwf : r.target.WellFormed) (h : lower o r = .ok (r', out)) :
    (out.changed = false ↔ r'.target = r.target)
      ∧ (out.preserved = .all ↔ r'.target = r.target)
      ∧ (out.changed ↔ ∃ f, r'.target.function? f ≠ r.target.function? f) := by
  rcases lower_changed_cases o hwf h with ⟨hchanged, heq⟩ | ⟨hchanged, f, hf⟩
  · simp [Outcome.preserved, hchanged, heq]
  · have hne : r'.target ≠ r.target := fun heq => hf (by rw [heq])
    have hexists : ∃ f, r'.target.function? f ≠ r.target.function? f := ⟨f, hf⟩
    simp [Outcome.preserved, hchanged, hne, hexists]

/-- `main` calls a function that must not be copied and one that calls itself. -/
def Module.stubborn : Module :=
  (build "stubborn" [
    ((({ name := "fixed" } : Function).withPhase 1).withFlags { noInline := true },
      some [.op "work", .ret]),
    (({ name := "loop" } : Function).withPhase 1, some [.call () (.direct ⟨1⟩), .ret]),
    ({ name := "main" }, some [.call () (.direct ⟨0⟩), .call () (.direct ⟨1⟩), .ret])]).2

theorem Module.stubborn_wellFormed : stubborn.WellFormed := .build _ _

/-- One call is refused, and the calls on and into the loop are left alone. Nothing has changed. Of
the other module the calls of one function are replaced, and a function has changed. -/
theorem changed_exact_stubborn :
    (∃ r' out, lower { phase := 1, strategy := .rescan 4 } { target := Module.stubborn }
        = .ok (r', out) ∧ out.failed = 1 ∧ out.residue.unresolved = [⟨1⟩, ⟨2⟩]
          ∧ out.preserved = .all ∧ r'.target = Module.stubborn)
      ∧ ∃ r' out, lower { phase := 1 } { target := Module.staged } = .ok (r', out)
        ∧ out.preserved = .nothing
        ∧ ∃ f, r'.target.function? f ≠ Module.staged.function? f := by
  have hrun : (lower { phase := 1, strategy := .rescan 4 }
      { target := Module.stubborn }).toOption.any (fun e =>
        e.2.failed = 1 ∧ e.2.residue.unresolved = [⟨1⟩, ⟨2⟩] ∧ e.2.changed = false) = true := by
    decide +kernel
  have hrun' : (lower { phase := 1 } { target := Module.staged }).toOption.any
      (fun e => e.2.changed) = true := by
    decide +kernel
  obtain ⟨⟨r', out⟩, h, hcheck⟩ := exists_ok_of_any hrun
  obtain ⟨⟨r₁, out₁⟩, h₁, hchanged₁⟩ := exists_ok_of_any hrun'
  obtain ⟨hfailed, hunresolved, hchanged⟩ := of_decide_eq_true hcheck
  obtain ⟨hsame, hall, -⟩ := changed_exact _ Module.stubborn_wellFormed h
  obtain ⟨-, -, hother⟩ := changed_exact _ Module.staged_wellFormed h₁
  refine ⟨⟨r', out, h, hfailed, hunresolved, hall.2 (hsame.1 hchanged), hsame.1 hchanged⟩,
    r₁, out₁, h₁, ?_, hother.1 hchanged₁⟩
  simp [Outcome.preserved, show out₁.changed = true from hchanged₁]

end PhasedInlining
