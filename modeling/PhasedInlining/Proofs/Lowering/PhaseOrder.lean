import PhasedInlining.Proofs.Lowering.Agreement
import PhasedInlining.Proofs.Lowering.Faults
import PhasedInlining.Proofs.Lowering.Idempotence

/-!
# The order of phases

Lowering phases callees first, one after the other, expands bodies by those of functions that are
marked for one of the phases and reach no call cycle. Whether a function reaches one does not change
on the way, for those that are left (`Lowered`). After a phase no call of such a function of the
phase is left, and no later phase brings one back (`Module.Cleared`). So in the end no body can be
expanded further (`lowerAll_lowered`). There is one such expansion, whatever the order of the
phases, and none of them finds anything to inline in it.
-/

namespace PhasedInlining

open CallSource Target
open Relation (ReflTransGen TransGen)

/-- Within a set that it does not leave, one relation may stand in for another. -/
theorem ReachesCycle.of_closed {α : Type} {r r' : α → α → Prop} {U : α → Prop}
    (hU : ∀ {a b}, U a → r a b → U b ∧ r' a b) {a : α} (ha : U a) (h : ReachesCycle r a) :
    ReachesCycle r' a := by
  have hpath : ∀ {a b}, U a → ReflTransGen r a b → U b ∧ ReflTransGen r' a b := by
    intro a b ha hab
    induction hab with
    | refl => exact ⟨ha, .refl⟩
    | tail _ hbc ih =>
      obtain ⟨hc, hbc'⟩ := hU ih.1 hbc
      exact ⟨hc, ih.2.tail hbc'⟩
  obtain ⟨b, hab, hb⟩ := h
  obtain ⟨hUb, hab'⟩ := hpath ha hab
  obtain ⟨c, hbc, hcb⟩ := TransGen.tail'_iff.1 hb
  obtain ⟨hUc, hbc'⟩ := hpath hUb hbc
  exact ⟨b, hab', .tail' hbc' (hU hUc hcb).2⟩

namespace EventLog

theorem starved_merge {l k : EventLog} {f : FunctionId} :
    (l.merge k).Starved f ↔ l.Starved f ∨ k.Starved f := by
  unfold Starved merge
  simp only [Array.mem_append, or_and_right, exists_or]

theorem starved_foldl_merge {f : FunctionId} : ∀ (outs : List Outcome) (l : EventLog),
    (outs.foldl (fun l out => l.merge out.log) l).Starved f
      ↔ l.Starved f ∨ ∃ out ∈ outs, out.log.Starved f
  | [], l => by simp
  | out :: outs, l => by
    rw [List.foldl_cons, starved_foldl_merge outs, starved_merge, or_assoc]
    simp

theorem starved_log {os : Outcomes} {f : FunctionId} :
    os.log.Starved f ↔ ∃ out ∈ os.outcomes, out.log.Starved f := by
  unfold Outcomes.log
  rw [starved_foldl_merge, or_iff_right]
  simp [Starved]

end EventLog

namespace Module

variable {m m' : Module} {f c k : FunctionId}

theorem Unused.ne_of_calls (h : m.Unused f) (hc : m.Calls k c) : c ≠ f := by
  rintro rfl
  obtain ⟨-, x, hx⟩ := hc
  exact h k (Body.mem_uses.2 (.inl ⟨x, hx⟩))

theorem calls_remove (hk : k ≠ f) (hc : c ≠ f) : (m.remove f).2.Calls k c ↔ m.Calls k c := by
  have hbody : (m.remove f).2.hasBody c = m.hasBody c := by
    simp [Module.hasBody, function?_remove, hc]
  rw [Calls, Calls, hbody, instrsOf_remove, if_neg hk]

/-- The removal of an unused function takes nothing off the ways of the others. -/
theorem reachesCycle_remove (h : m.Unused f) (hk : k ≠ f) :
    ReachesCycle (m.remove f).2.Calls k ↔ ReachesCycle m.Calls k := by
  constructor
  · refine ReachesCycle.of_closed (U := (· ≠ f)) (fun {a b} ha hab => ?_) hk
    have hb : b ≠ f := by
      rintro rfl
      have := hab.1
      simp [Module.hasBody, function?_remove] at this
    exact ⟨hb, (calls_remove ha hb).1 hab⟩
  · refine ReachesCycle.of_closed (U := (· ≠ f)) (fun {a b} ha hab => ?_) hk
    have hb := h.ne_of_calls hab
    exact ⟨hb, (calls_remove ha hb).2 hab⟩

/-- Lowering the phases callees first replaces calls of `f`. -/
def Expandable (phases : List Nat) (m : Module) (f : FunctionId) : Prop :=
  (∃ p ∈ phases, m.Inlinable p f) ∧ ¬ ReachesCycle m.Calls f

/-- In `m` no call is left that lowering the phase callees first would replace in `m₀`. -/
def Cleared (phase : Nat) (m₀ m : Module) : Prop :=
  ∀ f c x, .call x (.direct c) ∈ m.instrsOf f → m₀.Inlinable phase c → ReachesCycle m₀.Calls c

theorem Cleared.splice {phase : Nat} {m₀ : Module} (h : m₀.Cleared phase m) (hwf : m.WellFormed)
    (s : CallSiteId) : m₀.Cleared phase (m.splice s).2 := by
  rcases m.splice_cases s with ⟨r, -, hs⟩ | ⟨caller, callee, g, -, -, -, hs⟩
  · rw [hs]
    exact h
  · intro f c x hx hc
    rcases hs.mem_call hwf hx with ⟨hx, -⟩ | ⟨-, y, hy⟩
    · exact h f c x hx hc
    · exact h callee c y hy hc

theorem Cleared.remove {phase : Nat} {m₀ : Module} (h : m₀.Cleared phase m) (k : FunctionId) :
    m₀.Cleared phase (m.remove k).2 := by
  intro f c x hx hc
  rw [instrsOf_remove] at hx
  split_ifs at hx
  · cases hx
  · exact h f c x hx hc

theorem Cleared.lower {phase : Nat} {m₀ : Module} {o : Options} {r r' : Run Module} {out : Outcome}
    (h : m₀.Cleared phase r.target) (hwf : r.target.WellFormed)
    (hlower : PhasedInlining.lower o r = .ok (r', out)) : m₀.Cleared phase r'.target := by
  have hkeeps := lower_keeps o (P := fun m : Module => m.WellFormed ∧ m₀.Cleared phase m)
    (fun m s hm => m.target_inline s ▸ ⟨hm.1.splice s, hm.2.splice hm.1 s⟩)
    (fun r hr => Sweep.sweep_keeps
      (fun m f _ hm _ _ => ⟨hm.1.remove f, hm.2.remove f⟩) r hr.1 hr) r ⟨hwf, h⟩
  rw [hlower] at hkeeps
  exact hkeeps.2

end Module

open PhasedInlining.Module

/-- `m` is what lowering `phases` callees first may have made of `m₀`. -/
structure Lowered (phases : List Nat) (m₀ m : Module) : Prop extends m₀.Frames phases m where
  wf : m.WellFormed
  expands : ∀ {f}, m.contains f → Expands (m₀.Expandable phases) m₀.copyOf
    (Body.draft (m₀.instrsOf f)) (Body.draft (m.instrsOf f))
  cycles : ∀ {f}, m.contains f → (ReachesCycle m.Calls f ↔ ReachesCycle m₀.Calls f)

namespace Lowered

variable {phases : List Nat} {m₀ m m' : Module} {f c : FunctionId} {p : Nat}

theorem refl (h : m₀.WellFormed) : Lowered phases m₀ m₀ :=
  ⟨.refl _, h, fun _ => .refl _, fun _ => Iff.rfl⟩

theorem splice {site : CallSiteId} {g : Function} (h : Lowered phases m₀ m)
    (hs : m.Splices site m' f c g) (hwf : m'.WellFormed) (hc : m₀.Expandable phases c) :
    Lowered phases m₀ m' := by
  have hlive : ∀ {k}, m'.contains k → m.contains k := fun {k} hk => by
    rwa [contains_of_header? (hs.header?_eq k)] at hk
  refine ⟨h.toFrames.splices hs, hwf, fun {k} hk => ?_, fun {k} hk => ?_⟩
  · by_cases hkf : k = f
    · subst hkf
      exact hs.expands hc (h.expands (contains_iff.2 ⟨g, hs.callee_eq⟩)) (h.expands (hlive hk))
    · rw [hs.instrsOf_other hkf]
      exact h.expands (hlive hk)
  · exact (hs.bypasses.keepsCycles (P := fun _ => True) trivial).reachesCycle_iff.trans
      (h.cycles (hlive hk))

theorem remove (h : Lowered phases m₀ m) (hunused : m.Unused f) (hp : p ∈ phases)
    (hf : isRemovable p m f = .ok true) : Lowered phases m₀ (m.remove f).2 := by
  have hlive : ∀ {k}, (m.remove f).2.contains k → m.contains k ∧ k ≠ f := fun {k} hk => by
    simpa [contains_remove] using hk
  refine ⟨h.toFrames.remove hunused hp hf, h.wf.remove f, fun {k} hk => ?_, fun {k} hk => ?_⟩
  · rw [instrsOf_remove, if_neg (hlive hk).2]
    exact h.expands (hlive hk).1
  · exact (reachesCycle_remove hunused (hlive hk).2).trans (h.cycles (hlive hk).1)

/-- What is marked and may be copied now was so before. -/
theorem inlinable (h : Lowered phases m₀ m) {g : Function} (hg : m.function? c = some g)
    (hbody : g.hasBody) (hno : g.flags.noInline = false) (hmarked : isMarked p m₀ c = .ok true) :
    m₀.Inlinable p c := by
  obtain ⟨g₀, hg₀, hgg₀⟩ := h.header hg
  refine ⟨hmarked, g₀, hg₀, ?_⟩
  rw [← Function.isInlinable_of_header hgg₀]
  simp [Function.isInlinable, hbody, hno]

theorem isMarked_eq (h : Lowered phases m₀ m) (hc : m.contains c) :
    isMarked p m c = isMarked p m₀ c :=
  isMarked_of_header? (h.header?_eq hc) p

theorem not_reachesCycle (h : Lowered phases m₀ m) (hc : c ∈ m.visitOrder) :
    ¬ ReachesCycle m₀.Calls c := by
  have hbody := h.wf.hasBody_iff_drained.2 (.inl hc)
  intro hcycle
  rw [← h.cycles (contains_of_hasBody hbody)] at hcycle
  exact Snapshot.not_mem_ready_of_unresolved (Snapshot.records_ofSource m)
    (h.wf.mem_unresolved.2 ⟨hbody, hcycle⟩) hc

theorem attempt {s : Inlining Module} (h : Lowered phases m₀ s.target) (hp : p ∈ phases)
    (hmarked : isMarked p m₀ c = .ok true) (hoff : ¬ ReachesCycle m₀.Calls c)
    (call : FunctionId × CallSiteId) : Lowered phases m₀ (s.attempt p c call).target := by
  have hwf : (s.attempt p c call).target.WellFormed :=
    Inlining.attempt_keeps (fun t x ht => t.target_inline x ▸ ht.splice x) c s call h.wf
  cases Inlining.attempt_cases p c s call with
  | stale _ target _ => rwa [target]
  | refused _ _ _ target _ _ => rwa [target]
  | done f g _ hs =>
    exact h.splice hs hwf ⟨⟨p, hp, h.inlinable hs.callee_eq hs.hasBody hs.noInline hmarked⟩, hoff⟩

theorem visit {s : Inlining Module} (h : Lowered phases m₀ s.target) (hp : p ∈ phases)
    (hoff : ¬ ReachesCycle m₀.Calls c) (snapshot : Snapshot) :
    Ends (fun s' : Inlining Module => Lowered phases m₀ s'.target) (fun _ => True)
      (s.visit p snapshot c) := by
  refine (Run.check_ends (P := fun _ => True) trivial _).map fun marked hm => ?_
  cases marked with
  | false => exact h
  | true =>
    rw [h.isMarked_eq (contains_of_isMarked hm)] at hm
    exact List.foldlRecOn (motive := fun s : Inlining Module => Lowered phases m₀ s.target) _ _ h
      fun s hs call _ => hs.attempt hp hm hoff call

variable {o : Options} {r r' : Run Module} {out : Outcome}

theorem lower (h : Lowered phases m₀ r.target) (ho : o.strategy = .bottomUp)
    (hp : o.phase ∈ phases) (hlower : PhasedInlining.lower o r = .ok (r', out)) :
    Lowered phases m₀ r'.target := by
  obtain ⟨r₁, report, r₂, removed, hinlined, hsweep, hcomplete⟩ := (lower_stages o).1 hlower
  obtain ⟨s₀, s, hs₀, -, hvisits, rfl, rfl⟩ := o.inlineStage_bottomUp ho hinlined
  cases hcomplete
  have hends := ends_foldlM (P := fun s : Inlining Module => Lowered phases m₀ s.target)
    (Q := fun _ => True) r.target.visitOrder
    (fun s c hc hs => hs.visit hp (h.not_reachesCycle hc) (Snapshot.ofSource r.target))
    (hs₀ ▸ h)
  rw [hvisits] at hends
  have hkeeps := o.sweepPhase_keeps (P := Lowered phases m₀) (fun r hr =>
    Sweep.sweep_keeps (fun _ _ _ hm hunused hf => hm.remove hunused hp hf) r hr.wf hr)
    (o.diagnose (Snapshot.ofSource r.target) (s.report (Snapshot.ofSource r.target).drain)
      s.toRun).1 (by rw [o.target_diagnose]; exact hends)
  rw [hsweep] at hkeeps
  exact hkeeps

/-- With handles enough, lowering a phase clears it. -/
theorem cleared (h : Lowered phases m₀ r.target) (ho : o.strategy = .bottomUp)
    (hp : o.phase ∈ phases) (hlower : PhasedInlining.lower o r = .ok (r', out))
    (hroom : ∀ f, ¬ out.log.Starved f) : m₀.Cleared o.phase r'.target := by
  intro f c x hx hc
  have h' := h.lower ho hp hlower
  obtain ⟨m, log, hl⟩ := lower_leaves ho h.wf hlower
  have hlive : r'.target.contains c :=
    h'.closed (Body.mem_uses.2 (.inl ⟨x, hx⟩)) (contains_of_hasBody hc.hasBody)
  obtain ⟨g, hg⟩ := contains_iff.1 hlive
  obtain ⟨hmarked, g₀, hg₀, hgi⟩ := hc
  obtain ⟨_, hg₁, hgg₀⟩ := h'.header hg
  cases hg₀.symm.trans hg₁
  rw [← Function.isInlinable_of_header hgg₀] at hgi
  simp only [Function.isInlinable, Bool.and_eq_true, Bool.not_eq_true'] at hgi
  rw [← h'.isMarked_eq hlive] at hmarked
  rcases hl.call_left h.wf hx hg hgi.1 hmarked with hno | hunresolved | hexhausted
  · cases hgi.2.symm.trans hno
  · rw [hl.unresolved, h.wf.mem_unresolved] at hunresolved
    exact (h.cycles (contains_of_hasBody hunresolved.1)).1 hunresolved.2
  · exact absurd hexhausted.2 (hroom c)

/-- Where a phase has been cleared, visits for it find nothing to inline. -/
theorem visits_idle (h : Lowered phases m₀ m) (hlegible : m.Legible) (hcleared : m₀.Cleared p m)
    {s : Inlining Module} (hs : s.Idle m) :
    ∃ s', m.visitOrder.foldlM (Inlining.visit p (Snapshot.ofSource m)) s = .ok s'
      ∧ s'.Idle m := by
  refine hs.foldlM_visit _ fun f hf => ?_
  obtain ⟨q, hq⟩ := hlegible f
  refine ⟨q == some p, map_eq_ok.2 ⟨q, hq, rfl⟩, fun hmarked call hcall => ?_⟩
  obtain ⟨caller, x⟩ := call
  obtain ⟨hbody, hx⟩ := (Snapshot.mem_callsTo_ofModule h.wf).1 hcall
  rcases hspliceable : m.spliceable x with reason | ⟨k, g⟩
  · exact ⟨reason, rfl⟩
  obtain ⟨c, hcallAt, -, hg, hgbody, hno, -⟩ := spliceable_ok.1 hspliceable
  cases hcallAt.symm.trans (h.wf.callAt?_iff.2 hx)
  have hmarked₀ : isMarked p m₀ f = .ok true := by
    rw [← h.isMarked_eq (contains_of_hasBody hbody), isMarked, hq, ← hmarked]
    rfl
  exact absurd (hcleared caller f x hx (h.inlinable hg hgbody hno hmarked₀)) (h.not_reachesCycle hf)

theorem lower_idle (h : Lowered phases m₀ r.target) (ho : o.strategy = .bottomUp)
    (hnone : r.target.functions.findSome? o.objection? = none)
    (hcleared : m₀.Cleared o.phase r.target) :
    ∃ r' out, PhasedInlining.lower o r = .ok (r', out) ∧ out.inlined = 0
      ∧ ∀ f, r'.target.contains f → r'.target.function? f = r.target.function? f := by
  have hstops := lower_stops (o := o) h.wf
  rcases hl : PhasedInlining.lower o r with halt | ⟨r', out⟩ <;> rw [hl] at hstops
  · rcases hstops with ⟨-, hfind⟩ | ⟨-, cap, hcap, -⟩
    · cases hnone.symm.trans hfind
    · cases ho.symm.trans hcap
  · obtain ⟨r₁, report, r₂, removed, hinlined, hsweep, hcomplete⟩ := (lower_stages o).1 hl
    have hprunes := (stages_of_lower h.wf hinlined hsweep).prunes
    obtain ⟨s₀, s, htarget, hzero, hvisits, rfl, rfl⟩ := o.inlineStage_bottomUp ho hinlined
    obtain ⟨s', hvisits', hidle⟩ := h.visits_idle (.of_findSome? h.wf hnone) hcleared
      (s := s₀) ⟨htarget, hzero⟩
    cases hvisits.symm.trans hvisits'
    cases hcomplete
    refine ⟨_, _, rfl, hidle.2, fun f hf => ?_⟩
    rw [← hidle.1]
    exact hprunes.function?_eq f hf

end Lowered

/-- What a row of phases has come to, if it comes to its end. -/
theorem lowerAll_lowered {o : Options} (ho : o.strategy = .bottomUp) {phases : List Nat}
    {r r' : Run Module} {os : Outcomes} (hwf : r.target.WellFormed)
    (h : lowerAll o phases r = .ok (r', os)) :
    Lowered phases r.target r'.target ∧ ∀ p ∈ phases,
      r'.target.functions.findSome? { o with phase := p }.objection? = none
        ∧ ((∀ f, ¬ os.log.Starved f) → r.target.Cleared p r'.target) := by
  have hrun := foldlM_keeps (f := lowerNext o)
    (I := fun done e => Lowered phases r.target e.1.target ∧ ∀ p ∈ done,
      e.1.target.functions.findSome? { o with phase := p }.objection? = none
        ∧ ((∀ f, ∀ out ∈ e.2.outcomes, ¬ out.log.Starved f) →
          r.target.Cleared p e.1.target))
    (fun {pre q post e e'} has hI hnext => ?_) ⟨.refl hwf, fun p hp => nomatch hp⟩ h
  · refine ⟨hrun.1, fun p hp => ⟨(hrun.2 p hp).1, fun hroom => ?_⟩⟩
    refine (hrun.2 p hp).2 fun f out hout hstarved => ?_
    exact hroom f (EventLog.starved_log.2 ⟨out, hout, hstarved⟩)
  · obtain ⟨hlowered, hdone⟩ := hI
    obtain ⟨r₁, out, hlower, htarget, houtcomes⟩ := lowerNext_ok o hnext
    have hq : q ∈ phases := by simp [has]
    have hlowered₁ := hlowered.lower (o := { o with phase := q }) ho hq hlower
    have hframe := (lower_frames { o with phase := q } hq e.1 ⟨hlowered.wf, .refl e.1.target⟩).2
    rw [hlower] at hframe
    rw [htarget, houtcomes]
    refine ⟨hlowered₁, fun p hp => ?_⟩
    rcases List.mem_append.1 hp with hp | hp
    · obtain ⟨hnone, hcleared⟩ := hdone p hp
      refine ⟨hframe.no_objection hlowered.wf hlowered₁.wf hnone, fun hroom => ?_⟩
      exact (hcleared fun f out hout => hroom f out (List.mem_append_left _ hout)).lower
        hlowered.wf hlower
    · obtain rfl := List.mem_singleton.1 hp
      have hstops := lower_stops (o := { o with phase := p }) hlowered.wf
      rw [hlower] at hstops
      refine ⟨hframe.no_objection hlowered.wf hlowered₁.wf hstops, fun hroom => ?_⟩
      exact hlowered.cleared (o := { o with phase := p }) ho hq hlower fun f =>
        hroom f out (by simp)

/-- Two rows of the same phases leave the same code in every function that both leave, up to
handles, as long as these do not run out. -/
theorem phase_order_immaterial {o : Options} (ho : o.strategy = .bottomUp) {ps qs : List Nat}
    (hphases : ∀ p, p ∈ ps ↔ p ∈ qs) {r r' r₁ r₁' : Run Module} {os os' : Outcomes}
    (hsame : r'.target = r.target) (hwf : r.target.WellFormed)
    (h : lowerAll o ps r = .ok (r₁, os)) (h' : lowerAll o qs r' = .ok (r₁', os'))
    (hroom : ∀ f, ¬ os.log.Starved f) (hroom' : ∀ f, ¬ os'.log.Starved f) {f : FunctionId}
    (hf : r₁.target.contains f) (hf' : r₁'.target.contains f) :
    r₁'.target.header? f = r₁.target.header? f
      ∧ Body.draft (r₁'.target.instrsOf f) = Body.draft (r₁.target.instrsOf f) := by
  obtain ⟨hlowered, hdone⟩ := lowerAll_lowered ho hwf h
  obtain ⟨hlowered', hdone'⟩ := lowerAll_lowered ho (r := r') (hsame ▸ hwf) h'
  rw [hsame] at hlowered' hdone'
  have hexpandable : r.target.Expandable qs = r.target.Expandable ps := by
    funext c
    simp only [Expandable, hphases]
  have hexpands' := hlowered'.expands hf'
  rw [hexpandable] at hexpands'
  refine ⟨(hlowered'.header?_eq hf').trans (hlowered.header?_eq hf).symm, ?_⟩
  refine hexpands'.unique (hlowered.expands hf) (fun c hc hmem => ?_) fun c hc hmem => ?_
  · obtain ⟨x, hx⟩ := Body.mem_draft.1 hmem
    obtain ⟨⟨p, hp, hinlinable⟩, hoff⟩ := hc
    exact hoff ((hdone' p ((hphases p).1 hp)).2 hroom' f c x hx hinlinable)
  · obtain ⟨x, hx⟩ := Body.mem_draft.1 hmem
    obtain ⟨⟨p, hp, hinlinable⟩, hoff⟩ := hc
    exact hoff ((hdone p hp).2 hroom f c x hx hinlinable)

/-- Both orders leave `main` with the same code under other handles. Only the second, in which
`dead` goes first, removes `only`. -/
theorem phase_order_immaterial_staged : ∃ r r' os os',
    lowerAll {} [1, 2] { target := staged } = .ok (r, os)
      ∧ lowerAll {} [2, 1, 2] { target := staged } = .ok (r', os')
      ∧ r.target.contains ⟨4⟩ ∧ r'.target.contains ⟨4⟩ = false
      ∧ r.target.sitesIn ⟨6⟩ ≠ r'.target.sitesIn ⟨6⟩
      ∧ r'.target.header? ⟨6⟩ = r.target.header? ⟨6⟩
      ∧ Body.draft (r'.target.instrsOf ⟨6⟩) = Body.draft (r.target.instrsOf ⟨6⟩) := by
  have hphases : ∀ p, p ∈ [1, 2] ↔ p ∈ [2, 1, 2] := by
    intro p
    simp only [List.mem_cons, List.not_mem_nil, or_false]
    tauto
  have hsites : ((lowerAll {} [1, 2] ({ target := staged } : Run Module)).run.target.sitesIn ⟨6⟩)
      ≠ (lowerAll {} [2, 1, 2] ({ target := staged } : Run Module)).run.target.sitesIn ⟨6⟩ := by
    decide +kernel
  have hrun : (lowerAll {} [1, 2] ({ target := staged } : Run Module)).toOption.any (fun e =>
      e.2.log.HasRoom ∧ e.1.target.contains ⟨4⟩ ∧ e.1.target.contains ⟨6⟩) = true := by
    decide +kernel
  have hrun' : (lowerAll {} [2, 1, 2] ({ target := staged } : Run Module)).toOption.any (fun e =>
      e.2.log.HasRoom ∧ e.1.target.contains ⟨4⟩ = false ∧ e.1.target.contains ⟨6⟩) = true := by
    decide +kernel
  obtain ⟨⟨r, os⟩, h, hcheck⟩ := exists_ok_of_any hrun
  obtain ⟨⟨r', os'⟩, h', hcheck'⟩ := exists_ok_of_any hrun'
  obtain ⟨hroom, honly, hmain⟩ := of_decide_eq_true hcheck
  obtain ⟨hroom', honly', hmain'⟩ := of_decide_eq_true hcheck'
  rw [h, h'] at hsites
  refine ⟨r, r', os, os', h, h', honly, honly', hsites, ?_⟩
  exact phase_order_immaterial (o := {}) (r := { target := staged }) rfl hphases (by rfl)
    staged_wellFormed h h' hroom.not_starved hroom'.not_starved hmain hmain'

/-- None of the phases that have been lowered finds anything to inline afterwards. It may remove
more, now that later phases have removed what used it. -/
theorem lower_after_lowerAll {o : Options} (ho : o.strategy = .bottomUp) {phases : List Nat}
    {r r₁ r₂ : Run Module} {os : Outcomes} (hwf : r.target.WellFormed)
    (h : lowerAll o phases r = .ok (r₁, os)) (hroom : ∀ f, ¬ os.log.Starved f) {p : Nat}
    (hp : p ∈ phases) (hr₂ : r₂.target = r₁.target) :
    ∃ r₃ out, lower { o with phase := p } r₂ = .ok (r₃, out) ∧ out.inlined = 0
      ∧ ∀ f, r₃.target.contains f → r₃.target.function? f = r₁.target.function? f := by
  obtain ⟨hlowered, hdone⟩ := lowerAll_lowered ho hwf h
  obtain ⟨hnone, hcleared⟩ := hdone p hp
  have hcleared := hcleared hroom
  rw [← hr₂] at hlowered hnone hcleared ⊢
  exact hlowered.lower_idle (o := { o with phase := p }) ho hnone hcleared

theorem lower_after_lowerAll_staged : ∃ r₁ os,
    lowerAll {} [1, 2] ({ target := staged } : Run Module) = .ok (r₁, os) ∧ os.inlined = 7
      ∧ ∃ r₃ out, lower { phase := 1 } { target := r₁.target } = .ok (r₃, out) ∧ out.inlined = 0
        ∧ ∀ f, r₃.target.contains f → r₃.target.function? f = r₁.target.function? f := by
  have hrun : (lowerAll {} [1, 2] ({ target := staged } : Run Module)).toOption.any (fun e =>
      e.2.log.HasRoom ∧ e.2.inlined = 7) = true := by decide +kernel
  obtain ⟨⟨r₁, os⟩, h, hcheck⟩ := exists_ok_of_any hrun
  obtain ⟨hroom, hinlined⟩ := of_decide_eq_true hcheck
  exact ⟨r₁, os, h, hinlined, lower_after_lowerAll (o := {}) (r := { target := staged }) rfl
    staged_wellFormed h hroom.not_starved (p := 1) (by decide) rfl⟩

end PhasedInlining
