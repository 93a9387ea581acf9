import PhasedInlining.Proofs.Code.Renaming
import PhasedInlining.Proofs.Lowering.Stages

/-!
# What lowering leaves alone

Lowering changes bodies and removes functions, and does nothing else. However a run ends, what it
leaves was there before and has kept all but its instructions; what it has taken was marked for a
phase that was lowered, and not protected; and what is left uses nothing that was taken
(`Module.Frames`). A splice keeps to this, and so does the removal of an unused function, and of
these a run consists. A run that ends well lists what it has taken (`Module.Accounts`).
-/

namespace PhasedInlining

open CallSource Target

namespace Body

variable {α : Type}

@[simp]
theorem uses_append (is js : List (Instr α)) : uses (is ++ js) = uses is ++ uses js :=
  List.filterMap_append

@[simp]
theorem uses_issue (next : Nat) (is : List (Instr α)) : uses (issue next is) = uses is := by
  rw [← uses_draft, draft_issue, uses_draft]

@[simp]
theorem uses_withoutReturns (is : List (Instr α)) : uses (withoutReturns is) = uses is := by
  simp only [uses, withoutReturns, List.filterMap_filter]
  congr 1
  funext i
  cases i <;> rfl

end Body

theorem isRemovable_iff {σ : Type} [Target σ] {phase : Nat} {t : σ} {f : FunctionId} :
    isRemovable phase t f = .ok true
      ↔ phaseOf t f = .ok (some phase) ∧ isProtected t f = false := by
  unfold isRemovable isMarked
  rcases phaseOf t f with fault | p <;> simp [Except.map]

namespace Module

/-- `m'` is what lowering `phases` may leave of `m`. -/
structure Frames (phases : List Nat) (m m' : Module) : Prop where
  header : ∀ {f g'}, m'.function? f = some g' → ∃ g, m.function? f = some g ∧ g'.header = g.header
  removed : ∀ {f}, m.contains f → m'.contains f = false →
    isProtected m f = false ∧ ∃ p ∈ phases, phaseOf m f = .ok (some p)
  closed : ∀ {f c}, c ∈ m'.usesIn f → m.contains c → m'.contains c

/-- `removed` names the functions of `m` that `m'` lacks, each of them once. -/
structure Accounts (m m' : Module) (removed : List RemovedFunction) : Prop where
  nodup : (removed.map (·.id)).Nodup
  mem_iff : ∀ {f name}, ⟨f, name⟩ ∈ removed ↔
    m'.contains f = false ∧ ∃ g, m.function? f = some g ∧ g.name = name

variable {phases : List Nat} {m m' : Module} {f : FunctionId}

theorem Splices.mem_usesIn {s : CallSiteId} {caller callee : FunctionId} {g : Function}
    (h : m.Splices s m' caller callee g) {c : FunctionId} (hc : c ∈ m'.usesIn f) :
    ∃ k, c ∈ m.usesIn k := by
  by_cases hf : f = caller
  · subst hf
    obtain ⟨pre, post, hbody, -, hbody'⟩ := h.body
    rw [usesIn, hbody'] at hc
    simp only [Body.uses_append, Body.uses_issue, Body.uses_withoutReturns, List.mem_append] at hc
    rcases hc with (hc | hc) | hc
    · exact ⟨f, by simp [usesIn, hbody, hc]⟩
    · exact ⟨callee, by rwa [usesIn, instrsOf_of_function? h.callee_eq]⟩
    · refine ⟨f, ?_⟩
      rw [usesIn, hbody, Body.uses_append, List.mem_append]
      exact .inr (List.filterMap_subset _ (List.subset_cons_self _ _) hc)
  · rw [usesIn, h.instrsOf_other hf] at hc
    exact ⟨f, hc⟩

namespace Frames

theorem refl (m : Module) : m.Frames phases m :=
  ⟨fun {_ g} hg => ⟨g, hg, rfl⟩, fun hf hno => by simp [hf] at hno, fun _ hc => hc⟩

theorem live (h : m.Frames phases m') (hf : m'.contains f) : m.contains f := by
  obtain ⟨g', hg'⟩ := contains_iff.1 hf
  obtain ⟨g, hg, -⟩ := h.header hg'
  exact contains_iff.2 ⟨g, hg⟩

theorem header?_eq (h : m.Frames phases m') (hf : m'.contains f) :
    m'.header? f = m.header? f := by
  obtain ⟨g', hg'⟩ := contains_iff.1 hf
  obtain ⟨g, hg, hgg'⟩ := h.header hg'
  simp [header?, hg, hg', hgg']

theorem splices {m₁ : Module} {s : CallSiteId} {caller callee : FunctionId} {k : Function}
    (h : m.Frames phases m') (hs : m'.Splices s m₁ caller callee k) : m.Frames phases m₁ := by
  have hlive : ∀ f, m₁.contains f = m'.contains f := fun f =>
    contains_of_header? (hs.header?_eq f)
  refine ⟨fun {f g'} hg' => ?_, fun hf hno => h.removed hf (hlive _ ▸ hno), fun hc hlive₀ => ?_⟩
  · obtain ⟨g, hg, hgg'⟩ := function?_of_header? (hs.header?_eq f) hg'
    obtain ⟨g₀, hg₀, hgg₀⟩ := h.header hg
    exact ⟨g₀, hg₀, hgg'.trans hgg₀⟩
  · obtain ⟨k, hk⟩ := hs.mem_usesIn hc
    rw [hlive]
    exact h.closed hk hlive₀

theorem splice (h : m.Frames phases m') (s : CallSiteId) : m.Frames phases (m'.splice s).2 := by
  rcases m'.splice_cases s with ⟨r, -, hs⟩ | ⟨caller, callee, k, -, -, -, hs⟩
  · rw [hs]
    exact h
  · exact h.splices hs

theorem remove (h : m.Frames phases m') (hunused : m'.Unused f) {p : Nat} (hp : p ∈ phases)
    (hf : isRemovable p m' f = .ok true) : m.Frames phases (m'.remove f).2 := by
  have hhead := h.header?_eq (contains_of_isRemovable hf)
  refine ⟨fun {k g'} hg' => ?_, fun {k} hk hno => ?_, fun {k c} hc hlive => ?_⟩
  · rw [function?_remove] at hg'
    split_ifs at hg'
    exact h.header hg'
  · by_cases hkf : k = f
    · rw [isRemovable_iff, phaseOf_of_header? hhead, isProtected_of_header? hhead] at hf
      rw [hkf]
      exact ⟨hf.2, p, hp, hf.1⟩
    · refine h.removed hk ?_
      simpa [contains_remove, hkf] using hno
  · rw [usesIn, instrsOf_remove] at hc
    split_ifs at hc
    · cases hc
    · have hne : c ≠ f := by
        rintro rfl
        exact hunused k hc
      rw [contains_remove, h.closed hc hlive]
      simpa using hne

end Frames

namespace Accounts

variable {m₁ : Module} {removed : List RemovedFunction}

/-- Where no phase is lowered, nothing is removed. -/
theorem nil (h : m.Frames [] m') : m.Accounts m' [] := by
  refine ⟨List.nodup_nil, fun {f name} => iff_of_false List.not_mem_nil ?_⟩
  intro hf
  obtain ⟨hno, g, hg, -⟩ := hf
  obtain ⟨-, p, hp, -⟩ := h.removed (contains_iff.2 ⟨g, hg⟩) hno
  exact List.not_mem_nil hp

theorem not_contains (h : m.Accounts m' removed) (hf : f ∈ removed.map (·.id)) :
    m'.contains f = false := by
  obtain ⟨k, hk, rfl⟩ := List.mem_map.1 hf
  exact (h.mem_iff.1 hk).1

/-- What was removed at first and what was removed then, one list after the other. -/
theorem append {removed₁ : List RemovedFunction} (h : m.Accounts m₁ removed)
    (h₁ : m₁.Accounts m' removed₁) {phases₁ : List Nat} (hframe : m.Frames phases m₁)
    (hframe₁ : m₁.Frames phases₁ m') : m.Accounts m' (removed ++ removed₁) := by
  refine ⟨?_, fun {f name} => ?_⟩
  · rw [List.map_append]
    refine h.nodup.append h₁.nodup fun f hf hf₁ => ?_
    obtain ⟨k, hk, rfl⟩ := List.mem_map.1 hf₁
    obtain ⟨-, g, hg, -⟩ := h₁.mem_iff.1 hk
    have := h.not_contains hf
    simp [contains, hg] at this
  · rw [List.mem_append, h.mem_iff, h₁.mem_iff]
    rcases hf : m₁.function? f with _ | g₁
    · have hno : m₁.contains f = false := by simp [contains, hf]
      have hno' : m'.contains f = false := by
        rw [Bool.eq_false_iff]
        intro hf'
        simp [hframe₁.live hf'] at hno
      simp [hno, hno']
    · obtain ⟨g, hg, hgg₁⟩ := hframe.header hf
      have hname : g₁.name = g.name := (congrArg Function.name hgg₁ :)
      simp [contains_iff.2 ⟨g₁, hf⟩, hg, hname]

/-- No two functions share a name, so names come up once as well. -/
theorem names_nodup (h : m.Accounts m' removed) (hwf : m.WellFormed) :
    (removed.map (·.name)).Nodup := by
  refine List.pairwise_map.2 ((List.pairwise_map.1 h.nodup).imp_of_mem fun {k k'} hk hk' hne => ?_)
  intro hname
  obtain ⟨-, hg⟩ := h.mem_iff.1 hk
  obtain ⟨-, hg'⟩ := h.mem_iff.1 hk'
  have hid := (hwf.byName_iff k.name k.id).2 hg
  rw [hname, (hwf.byName_iff k'.name k'.id).2 hg'] at hid
  exact hne (Option.some.inj hid).symm

end Accounts

end Module

open PhasedInlining.Module

section Run

variable {phases : List Nat} {m : Module}

/-- Removing a function that is there adds it to the list. -/
theorem Sweep.accounts_remove {phase : Nat} {s : Sweep Module} {f : FunctionId}
    (h : m.Accounts s.target s.removed.toList) (hframe : m.Frames phases s.target)
    (hf : s.target.contains f) :
    m.Accounts (s.remove phase f).target (s.remove phase f).removed.toList := by
  obtain ⟨g, hg⟩ := contains_iff.1 hf
  obtain ⟨g₀, hg₀, hgg₀⟩ := hframe.header hg
  have hname : displayName s.target f = g₀.name := by
    have : g.name = g₀.name := (congrArg Function.name hgg₀ :)
    simp [displayName, CallSource.name?, hg, this]
  rw [target_remove, removed_remove phase hf, Array.toList_push, hname]
  refine ⟨?_, fun {k name} => ?_⟩
  · rw [List.map_append, List.map_singleton, List.nodup_append_comm, List.singleton_append,
      List.nodup_cons]
    refine ⟨fun hmem => ?_, h.nodup⟩
    have := h.not_contains hmem
    simp [hf] at this
  · rw [List.mem_append, List.mem_singleton, h.mem_iff, contains_remove, RemovedFunction.mk.injEq]
    by_cases hk : k = f
    · subst hk
      simp [hf, hg₀, eq_comm]
    · simp [hk]

theorem Sweep.sweep_accounts {phase : Nat} {r r' : Run Module} {removed : List RemovedFunction}
    (hwf : r.target.WellFormed) (h : sweep phase r = .ok (r', removed)) :
    r.target.Frames [phase] r'.target ∧ r.target.Accounts r'.target removed := by
  obtain ⟨s, hv, hs⟩ := map_eq_ok.1 h
  cases hs
  have hends := visitFrom_ends
    (P := fun s => r.target.Frames [phase] s.target
      ∧ r.target.Accounts s.target s.removed.toList)
    (fun s f _ hs hunused (hf : isRemovable phase s.target f = .ok true) => by
      refine ⟨?_, accounts_remove hs.2 hs.1 (contains_of_isRemovable hf)⟩
      rw [target_remove]
      exact hs.1.remove hunused List.mem_cons_self hf)
    _ 0 (start r) (inv_start r hwf) ⟨.refl _, .nil (.refl _)⟩ (Nat.le_of_eq (Nat.zero_add _).symm)
  rw [hv] at hends
  exact hends.1

theorem frames_inline (m' : Module) (s : CallSiteId) (h : m'.WellFormed ∧ m.Frames phases m') :
    (inline m' s).2.WellFormed ∧ m.Frames phases (inline m' s).2 := by
  rw [target_inline]
  exact ⟨h.1.splice s, h.2.splice s⟩

theorem frames_sweep {phase : Nat} (hphase : phase ∈ phases) (r : Run Module)
    (h : r.target.WellFormed ∧ m.Frames phases r.target) :
    Keeps (fun m' => m'.WellFormed ∧ m.Frames phases m') (sweep phase r) :=
  Sweep.sweep_keeps (fun _ f _ hm hunused hf =>
    ⟨hm.1.remove f, hm.2.remove hunused hphase hf⟩) r h.1 h

theorem lower_frames (o : Options) (hphase : o.phase ∈ phases) (r : Run Module)
    (h : r.target.WellFormed ∧ m.Frames phases r.target) :
    (lower o r).run.target.WellFormed ∧ m.Frames phases (lower o r).run.target :=
  (lower_keeps o frames_inline (frames_sweep hphase) r h).run

variable (o : Options) {r r' : Run Module} (hwf : r.target.WellFormed)
include hwf

theorem lowerAll_frames (phases : List Nat) : (lowerAll o phases r).run.target.WellFormed
    ∧ r.target.Frames phases (lowerAll o phases r).run.target :=
  (lowerAll_keeps o frames_inline phases (fun _ hp => frames_sweep hp) r ⟨hwf, .refl _⟩).run

theorem Options.inlineStage_frames (phases : List Nat) {r₁ : Run Module} {report : InlineReport}
    (h : o.inlineStage r = .ok (r₁, report)) :
    r₁.target.WellFormed ∧ r.target.Frames phases r₁.target := by
  obtain ⟨r₀, -, htarget, hinline⟩ := o.inlineStage_ok.1 h
  have hstart : (o.begin r₀).1.target = r.target := htarget
  have hkeeps := o.inlinePhase_keeps (P := fun m => m.WellFormed ∧ r.target.Frames phases m)
    frames_inline (Snapshot.ofSource r.target) (o.begin r₀).1
    (by rw [hstart]; exact ⟨hwf, .refl _⟩)
  rw [hinline] at hkeeps
  exact hkeeps

theorem lower_accounts {out : Outcome} (h : lower o r = .ok (r', out)) :
    r.target.Accounts r'.target out.removed := by
  obtain ⟨r₁, report, r₂, removed, hinlined, hsweep, hcomplete⟩ := (lower_stages o).1 h
  cases hcomplete
  obtain ⟨hwf₁, hframe⟩ := o.inlineStage_frames hwf [] hinlined
  rw [← o.target_diagnose (Snapshot.ofSource r.target) report r₁] at hwf₁ hframe
  unfold Options.sweepPhase at hsweep
  split_ifs at hsweep
  · obtain ⟨hframe₁, hswept⟩ := Sweep.sweep_accounts hwf₁ hsweep
    exact (Accounts.nil hframe).append hswept hframe hframe₁
  · cases hsweep
    exact .nil hframe

/-- The lists of the phases, one after the other, name what all of them have removed. -/
theorem lowerAll_accounts {os : Outcomes} (h : lowerAll o phases r = .ok (r', os)) :
    r.target.Accounts r'.target (os.outcomes.flatMap (·.removed)) := by
  have hrun := foldlM_keeps (f := lowerNext o)
    (I := fun _ e => (e.1.target.WellFormed ∧ r.target.Frames phases e.1.target)
      ∧ r.target.Accounts e.1.target (e.2.outcomes.flatMap (·.removed)))
    (fun {pre p post e e'} has hI hnext => ?_) ⟨⟨hwf, .refl _⟩, .nil (.refl _)⟩ h
  · exact hrun.2
  · obtain ⟨r₁, out, hlower, htarget, houtcomes⟩ := lowerNext_ok o hnext
    have hp : p ∈ phases := by simp [has]
    have hframes := lower_frames { o with phase := p } hp e.1 hI.1
    have hstep := lower_frames { o with phase := p } hp e.1 ⟨hI.1.1, .refl e.1.target⟩
    rw [hlower] at hframes hstep
    rw [htarget, houtcomes, List.flatMap_append, List.flatMap_singleton]
    exact ⟨hframes, hI.2.append (lower_accounts _ hI.1.1 hlower) hI.1.2 hstep.2⟩

end Run

/-- However a run ends, it leaves the module framed by the phases it lowers, and if it ends well it
names each function that it has removed, and no other. -/
theorem lowering_framed (o : Options) (phases : List Nat) {r : Run Module}
    (hwf : r.target.WellFormed) :
    r.target.Frames [o.phase] (lower o r).run.target
      ∧ r.target.Frames phases (lowerAll o phases r).run.target
      ∧ (∀ r' out, lower o r = .ok (r', out) → r.target.Accounts r'.target out.removed
        ∧ (out.removed.map (·.name)).Nodup)
      ∧ ∀ r' os, lowerAll o phases r = .ok (r', os) →
        r.target.Accounts r'.target (os.outcomes.flatMap (·.removed)) ∧ os.removed.Nodup := by
  refine ⟨?_, (lowerAll_frames o hwf phases).2, fun r' out h => ?_, fun r' os h => ?_⟩
  · exact (lower_frames o List.mem_cons_self r ⟨hwf, .refl _⟩).2
  · have haccounts := lower_accounts o hwf h
    exact ⟨haccounts, haccounts.names_nodup hwf⟩
  · have haccounts := lowerAll_accounts o hwf h
    have hnames := haccounts.names_nodup hwf
    rw [List.map_flatMap] at hnames
    exact ⟨haccounts, hnames⟩

/-- Two phases that call into each other, a loop, and `dead`, with which the last use of `only`
goes. -/
def Module.staged : Module :=
  (build "staged" [
    (({ name := "leaf" } : Function).withPhase 1, some [.op "work", .call () .indirect, .ret]),
    (({ name := "step" } : Function).withPhase 2,
      some [.call () (.direct ⟨0⟩), .op "join", .ret]),
    (({ name := "outer" } : Function).withPhase 1,
      some [.call () (.direct ⟨0⟩), .call () (.direct ⟨1⟩), .ret]),
    (({ name := "loop" } : Function).withPhase 2,
      some [.call () (.direct ⟨2⟩), .call () (.direct ⟨3⟩)]),
    (({ name := "only" } : Function).withPhase 1, some [.op "rest"]),
    (({ name := "dead" } : Function).withPhase 2, some [.ref ⟨4⟩, .ret]),
    (({ name := "main" } : Function).withProtection,
      some [.call () (.direct ⟨2⟩), .call () (.direct ⟨1⟩), .call () (.direct ⟨3⟩), .ret])]).2

theorem Module.staged_wellFormed : staged.WellFormed := .build _ _

theorem lowering_framed_staged : ∃ r' os,
    lowerAll {} [1, 2] ({ target := staged } : Run Module) = .ok (r', os)
      ∧ os.removed = ["leaf", "outer", "step", "dead"] ∧ staged.Frames [1, 2] r'.target
      ∧ staged.Accounts r'.target (os.outcomes.flatMap (·.removed)) := by
  have hrun : (lowerAll {} [1, 2] ({ target := staged } : Run Module)).toOption.any
      (fun e => e.2.removed = ["leaf", "outer", "step", "dead"]) = true := by decide +kernel
  obtain ⟨⟨r', os⟩, h, hcheck⟩ := exists_ok_of_any hrun
  obtain ⟨-, hframes, -, haccounts⟩ :=
    lowering_framed {} [1, 2] (r := { target := staged }) staged_wellFormed
  rw [h] at hframes
  exact ⟨r', os, h, of_decide_eq_true hcheck, hframes, (haccounts r' os h).1⟩

end PhasedInlining
