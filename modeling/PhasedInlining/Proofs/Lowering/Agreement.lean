import PhasedInlining.Proofs.Code.Renaming
import PhasedInlining.Proofs.Lowering.Rescan

/-!
# The strategies agree

Without call cycles both ways of inlining a phase replace all calls that may be (`lower_flattens`),
so they leave modules that are alike. A sweep looks at nothing in which alike modules differ. Two
sweeps of such modules therefore go the same way, remove the same functions and leave modules that
are alike again (`Sweep.Alike`).
-/

namespace PhasedInlining

open CallSource Target
open Relation (TransGen)

namespace Module.Alike

variable {m m' : Module} (h : m.Alike m') (f : FunctionId)
include h

theorem isRemovable_eq (phase : Nat) : isRemovable phase m' f = isRemovable phase m f := by
  rw [isRemovable, isRemovable, isMarked_of_header? (h.header f),
    isProtected_of_header? (h.header f)]

theorem displayName_eq : displayName m' f = displayName m f := by
  have hname : ∀ m : Module, name? m f = (m.header? f).map (·.name) := by
    intro m
    simp only [name?, header?, Option.map_map]
    rfl
  rw [displayName, displayName, hname, hname, h.header]

end Module.Alike

namespace Sweep

/-- Two sweeps at the same point, of modules that are alike. -/
structure Alike (s s' : Sweep Module) : Prop where
  target : s.target.Alike s'.target
  uses : s'.uses = s.uses
  unused : s'.unused = s.unused
  removed : s'.removed = s.removed

theorem alike_start {r r' : Run Module} (h : r.target.Alike r'.target)
    (hwf : r.target.WellFormed) (hwf' : r'.target.WellFormed) : (start r).Alike (start r') := by
  have hids : CallSource.functionIds r'.target = CallSource.functionIds r.target :=
    h.functionIds_eq hwf hwf'
  have huses : usesIn r'.target = usesIn r.target := funext h.usesIn_eq
  refine ⟨h, ?_, ?_, rfl⟩
  · simp only [start, hids, huses]
  · simp only [start, hids, huses]

namespace Alike

variable {s s' : Sweep Module}

theorem release (h : s.Alike s') (f : FunctionId) : (s.release f).Alike (s'.release f) := by
  unfold Sweep.release
  rw [h.uses]
  split
  · exact h
  · split_ifs
    · exact ⟨h.target, rfl, by rw [h.unused], h.removed⟩
    · exact ⟨h.target, rfl, h.unused, h.removed⟩

theorem foldl_release : ∀ (fs : List FunctionId) {s s' : Sweep Module}, s.Alike s' →
    (fs.foldl Sweep.release s).Alike (fs.foldl Sweep.release s')
  | [], _, _, h => h
  | f :: fs, _, _, h => foldl_release fs (h.release f)

theorem remove (h : s.Alike s') (phase : Nat) (f : FunctionId) :
    (s.remove phase f).Alike (s'.remove phase f) := by
  have huses : usesIn s'.target f = usesIn s.target f := h.target.usesIn_eq f
  unfold Sweep.remove
  simp only [change_erase, h.target.displayName_eq, huses, h.target.contains_eq f]
  rcases s.target.contains f with _ | _
  · exact ⟨h.target.remove f, h.uses, h.unused, h.removed⟩
  · refine foldl_release _ ⟨h.target.remove f, h.uses, h.unused, ?_⟩
    simp only [h.removed]

theorem visit (h : s.Alike s') {phase : Nat} {f : FunctionId} {t t' : Sweep Module}
    (ht : s.visit phase f = .ok t) (ht' : s'.visit phase f = .ok t') : t.Alike t' := by
  obtain ⟨b, hb, rfl⟩ := map_eq_ok.1 ht
  obtain ⟨b', hb', rfl⟩ := map_eq_ok.1 ht'
  rw [Run.check_eq_ok] at hb hb'
  rw [h.target.isRemovable_eq, hb] at hb'
  cases hb'
  split_ifs
  · exact h.remove phase f
  · exact h

theorem visitFrom {phase : Nat} : ∀ (fuel i : Nat) {s s' t t' : Sweep Module}, s.Alike s' →
    visitFrom phase fuel i s = .ok t → visitFrom phase fuel i s' = .ok t' → t.Alike t'
  | 0, _, _, _, _, _, h, ht, ht' => by
    cases ht
    cases ht'
    exact h
  | fuel + 1, i, s, s', t, t', h, ht, ht' => by
    unfold Sweep.visitFrom at ht ht'
    rw [h.unused] at ht'
    rcases hi : s.unused[i]? with _ | f <;> rw [hi] at ht ht'
    · cases ht
      cases ht'
      exact h
    · rcases hv : s.visit phase f with halt | s₁
      · simp [hv] at ht
      rcases hv' : s'.visit phase f with halt | s₁'
      · simp [hv'] at ht'
      simp only [hv] at ht
      simp only [hv'] at ht'
      exact visitFrom fuel (i + 1) (h.visit hv hv') ht ht'

end Alike

end Sweep

theorem Options.sweepPhase_alike (o : Options) {r r' r₁ r₁' : Run Module}
    {removed removed' : List RemovedFunction} (h : r.target.Alike r'.target)
    (hwf : r.target.WellFormed) (hwf' : r'.target.WellFormed)
    (hs : o.sweepPhase r = .ok (r₁, removed)) (hs' : o.sweepPhase r' = .ok (r₁', removed')) :
    r₁.target.Alike r₁'.target ∧ removed' = removed := by
  unfold sweepPhase at hs hs'
  split_ifs at hs hs'
  · have hstart := Sweep.alike_start h hwf hwf'
    obtain ⟨t, ht, heq⟩ := map_eq_ok.1 hs
    obtain ⟨t', ht', heq'⟩ := map_eq_ok.1 hs'
    cases heq
    cases heq'
    rw [hstart.uses, hstart.unused] at ht'
    have hend := hstart.visitFrom _ 0 ht ht'
    exact ⟨hend.target, by rw [hend.removed]⟩
  · cases hs
    cases hs'
    exact ⟨h, rfl⟩

/-- Without call cycles lowering inlines all that may be inlined, by either strategy, and then
sweeps. -/
theorem lower_flattens {o : Options} {r r' : Run Module} {out : Outcome}
    (hwf : r.target.WellFormed) (hacyclic : ∀ f, ¬ TransGen r.target.Calls f f)
    (h : lower o r = .ok (r', out)) :
    ∃ (log : EventLog) (r₁ r₂ : Run Module), Flattens o.phase r.target r₁.target log
      ∧ log.Grows out.log ∧ o.sweepPhase r₁ = .ok (r₂, out.removed)
      ∧ r'.target = r₂.target := by
  obtain ⟨r₀, r₁, report, r₂, removed, hvalid, hinline, hsweep, hcomplete⟩ := (lower_ok o).1 h
  have htarget : r₀.target = r.target := (o.target_validate hvalid :)
  rw [← htarget] at hwf hacyclic ⊢
  cases hcomplete
  have hflat : Flattens o.phase r₀.target r₁.target r₁.log := by
    unfold Options.inlinePhase at hinline
    split at hinline
    · exact flattens_bottomUp (r := (o.begin r₀).1) hwf hacyclic hinline
    · exact flattens_rescan (r := (o.begin r₀).1) hwf hacyclic hinline
  refine ⟨r₁.log, _, r₂, ?_, ?_, hsweep, rfl⟩
  · rwa [o.target_diagnose]
  · exact (o.grows_diagnose _ _ _).trans ((o.grows_sweepPhase hsweep).trans
      (EventLog.grows_record _ _))

/-- Lowering keeps the name, adds no slot and takes none away. -/
theorem Module.Lowers.name_and_size {m m' : Module} (hwf : m.WellFormed) (h : Lowers m m') :
    m'.name = m.name ∧ m'.slots.size = m.slots.size := by
  have hkeeps := h.keeps
    (P := fun k => k.WellFormed ∧ k.name = m.name ∧ k.slots.size = m.slots.size)
    (fun k s hk => ⟨hk.1.splice s, ?_⟩) (fun k f hk _ => ⟨hk.1.remove f, ?_⟩) (fun _ hk => hk.1)
    ⟨hwf, rfl, rfl⟩
  · exact hkeeps.2
  · unfold Module.splice
    split
    · exact hk.2
    · simpa [spliceBody, setBody, issueSites] using hk.2
  · unfold Module.remove
    split
    · exact hk.2
    · simpa using hk.2

/-- No call was refused for want of handles. -/
def EventLog.HasRoom (l : EventLog) : Prop :=
  ∀ e ∈ l.events, e.kind = .inlineFailed →
    ¬ (": " ++ Refusal.exhausted.message).toList <:+ e.message.toList

instance (l : EventLog) : Decidable l.HasRoom :=
  inferInstanceAs (Decidable (∀ e ∈ l.events, e.kind = .inlineFailed →
    ¬ (": " ++ Refusal.exhausted.message).toList <:+ e.message.toList))

theorem EventLog.HasRoom.not_starved {l : EventLog} (h : l.HasRoom) (f : FunctionId) :
    ¬ l.Starved f :=
  fun ⟨e, he, hkind, _, hmessage⟩ => h e he hkind hmessage

/-- On a module without call cycles the strategies do the same, as long as handles do not run out.
They leave modules that differ only in handles, and have removed the same functions in the same
order. -/
theorem strategies_agree (o : Options) (a b : Strategy) {r r' r₁ r₁' : Run Module}
    {out out' : Outcome} (hsame : r'.target = r.target) (hwf : r.target.WellFormed)
    (hacyclic : ∀ f, ¬ TransGen r.target.Calls f f)
    (h : lower { o with strategy := a } r = .ok (r₁, out))
    (h' : lower { o with strategy := b } r' = .ok (r₁', out'))
    (hroom : ∀ f, ¬ out.log.Starved f) (hroom' : ∀ f, ¬ out'.log.Starved f) :
    (∃ ρ, r₁.target.Renames ρ r₁'.target) ∧ out'.removed = out.removed := by
  have hlowers : Module.Lowers r.target r₁.target := by
    have := Module.Lowers.lower { o with strategy := a } r
    rwa [h] at this
  have hlowers' : Module.Lowers r.target r₁'.target := by
    have := Module.Lowers.lower { o with strategy := b } r'
    rwa [h', hsame] at this
  obtain ⟨log, k, r₂, hflat, hlog, hsweep, htarget⟩ := lower_flattens hwf hacyclic h
  obtain ⟨log', k', r₂', hflat', hlog', hsweep', htarget'⟩ :=
    lower_flattens (r := r') (hsame ▸ hwf) (hsame ▸ hacyclic) h'
  rw [hsame] at hflat'
  have halike : k.target.Alike k'.target :=
    ⟨fun f => (hflat'.header f).trans (hflat.header f).symm,
      hflat'.draft_eq hflat (fun f hf => hroom' f (hf.grows hlog'))
        fun f hf => hroom f (hf.grows hlog)⟩
  obtain ⟨hend, hremoved⟩ := o.sweepPhase_alike halike hflat.wf hflat'.wf hsweep hsweep'
  rw [← htarget, ← htarget'] at hend
  obtain ⟨hname, hsize⟩ := hlowers.name_and_size hwf
  obtain ⟨hname', hsize'⟩ := hlowers'.name_and_size hwf
  exact ⟨hend.renames (hwf.lowers hlowers) (hwf.lowers hlowers') (hname'.trans hname.symm)
    (hsize'.trans hsize.symm), hremoved⟩

/-- Of the layered functions both strategies remove the leaf and the one in the middle. They reach
the same calls in another order, and so give them other handles. -/
theorem strategies_agree_layered : ∃ r r' out out',
    lower { phase := 1, strategy := .bottomUp } { target := Module.layered } = .ok (r, out)
      ∧ lower { phase := 1, strategy := .rescan 4 } { target := Module.layered } = .ok (r', out')
      ∧ r.target.sitesIn ⟨3⟩ ≠ r'.target.sitesIn ⟨3⟩ ∧ (∃ ρ, r.target.Renames ρ r'.target)
      ∧ out.removed = [⟨⟨0⟩, "leaf"⟩, ⟨⟨2⟩, "middle"⟩] ∧ out'.removed = out.removed := by
  have hsites : ((lower { phase := 1 } { target := Module.layered }).run.target.sitesIn ⟨3⟩)
      ≠ (lower { phase := 1, strategy := .rescan 4 }
        { target := Module.layered }).run.target.sitesIn ⟨3⟩ := by
    decide +kernel
  have hrun : (lower { phase := 1 } { target := Module.layered }).toOption.any (fun e =>
      e.2.removed = [⟨⟨0⟩, "leaf"⟩, ⟨⟨2⟩, "middle"⟩] ∧ e.2.log.HasRoom) = true := by
    decide +kernel
  have hrun' : (lower { phase := 1, strategy := .rescan 4 }
      { target := Module.layered }).toOption.any (·.2.log.HasRoom) = true := by
    decide +kernel
  obtain ⟨⟨r, out⟩, h, hcheck⟩ := exists_ok_of_any hrun
  obtain ⟨⟨r', out'⟩, h', hcheck'⟩ := exists_ok_of_any hrun'
  rw [h, h'] at hsites
  obtain ⟨hremoved, hroom⟩ := of_decide_eq_true hcheck
  obtain ⟨hrenames, hsame⟩ := strategies_agree { phase := 1 } .bottomUp (.rescan 4)
    (r := { target := Module.layered }) (by rfl) Module.layered_wellFormed
    Module.layered_acyclic h h' hroom.not_starved
    (EventLog.HasRoom.not_starved (of_decide_eq_true hcheck'))
  exact ⟨r, r', out, out', h, h', hsites, hrenames, hremoved, hsame⟩

end PhasedInlining
