import PhasedInlining.Code.Blueprint
import PhasedInlining.Proofs.Lowering.Passes
import PhasedInlining.Target.Deviating

/-!
# Reports and logs agree

A pass counts what it does and records it as events, each for itself. Wherever one is changed the
other is changed with it (`EventLog.Tells`): the two inliners count and record each call that was
inlined or refused, the sweep lists and records each function removed, and everything else that is
recorded is of another kind. So an outcome reports what its log tells (`Outcome.Agrees`), and the
outcomes of several phases together report what their logs tell in a row.

Nothing is asked of the target. A call counts as inlined if the target says so.
-/

namespace PhasedInlining

variable {σ : Type} [Target σ]

open CallSource Target

section Log

namespace EventLog

theorem count_record (l : EventLog) (e : Event) (k : EventKind) :
    (l.record e).count k = l.count k + if e.kind = k then 1 else 0 := by
  simp [count, record, Array.countP_push]

theorem ofKind_record (l : EventLog) (e : Event) (k : EventKind) :
    (l.record e).ofKind k = l.ofKind k ++ if e.kind = k then [e] else [] := by
  unfold ofKind record
  split_ifs with hk <;> simp [List.filter_append, hk]

theorem count_merge (l l' : EventLog) (k : EventKind) :
    (l.merge l').count k = l.count k + l'.count k := by
  simp [count, merge]

theorem length_ofKind (l : EventLog) (k : EventKind) : (l.ofKind k).length = l.count k := by
  rw [ofKind, count, ← List.countP_eq_length_filter, Array.countP_toList]

/-- The log has so many calls inlined and so many refused, and these functions removed, in order. -/
structure Tells (l : EventLog) (inlined failed : Nat) (removed : List (Option FunctionId)) :
    Prop where
  inlined_eq : l.count .functionInlined = inlined
  failed_eq : l.count .inlineFailed = failed
  removed_eq : (l.ofKind .functionRemoved).map (·.function?) = removed

variable {l : EventLog} {e : Event} {i n : Nat} {fs : List (Option FunctionId)}

theorem tells_empty : ({} : EventLog).Tells 0 0 [] := ⟨rfl, rfl, rfl⟩

namespace Tells

theorem record (h : l.Tells i n fs) (e : Event) :
    (l.record e).Tells (i + if e.kind = .functionInlined then 1 else 0)
      (n + if e.kind = .inlineFailed then 1 else 0)
      (fs ++ if e.kind = .functionRemoved then [e.function?] else []) := by
  refine ⟨?_, ?_, ?_⟩
  · rw [count_record, h.inlined_eq]
  · rw [count_record, h.failed_eq]
  · rw [ofKind_record, List.map_append, h.removed_eq]
    split_ifs <;> rfl

theorem inlined (h : l.Tells i n fs) (he : e.kind = .functionInlined) :
    (l.record e).Tells (i + 1) n fs := by
  simpa [he] using h.record e

theorem failed (h : l.Tells i n fs) (he : e.kind = .inlineFailed) :
    (l.record e).Tells i (n + 1) fs := by
  simpa [he] using h.record e

theorem removed (h : l.Tells i n fs) (he : e.kind = .functionRemoved) :
    (l.record e).Tells i n (fs ++ [e.function?]) := by
  simpa [he] using h.record e

theorem other (h : l.Tells i n fs) (he : e.kind ≠ .functionInlined ∧ e.kind ≠ .inlineFailed
    ∧ e.kind ≠ .functionRemoved) : (l.record e).Tells i n fs := by
  simpa [he] using h.record e

theorem count_removed (h : l.Tells i n fs) : l.count .functionRemoved = fs.length := by
  rw [← length_ofKind, ← h.removed_eq, List.length_map]

end Tells

end EventLog

theorem Stats.changed_ofLog {l : EventLog} : (Stats.ofLog l).changed
    ↔ 0 < l.count .functionInlined ∨ 0 < l.count .functionRemoved := by
  rw [Stats.changed, Bool.or_eq_true, decide_eq_true_iff, decide_eq_true_iff]
  exact Iff.rfl

end Log

section Inlining

variable {fs : List (Option FunctionId)} {phase : Nat}

/-- A run in the middle of inlining has recorded what it has counted, and no removals but `fs`. -/
def Inlining.Tells (s : Inlining σ) (fs : List (Option FunctionId)) : Prop :=
  s.log.Tells s.inlined s.failed fs

theorem Inlining.Tells.refuse {s : Inlining σ} (h : s.Tells fs) (pass : String)
    (caller callee : FunctionId) (reason : String) :
    (s.refuse pass phase caller callee reason).Tells fs :=
  h.failed rfl

theorem Inlining.Tells.attempt {s : Inlining σ} (h : s.Tells fs) (callee : FunctionId)
    (call : FunctionId × CallSiteId) : (s.attempt phase callee call).Tells fs := by
  unfold Inlining.attempt
  simp only []
  split_ifs
  · have hchange : (s.change (inline · call.2)).2.Tells fs := h
    split <;> rename_i hs <;> rw [hs] at hchange
    · exact hchange.inlined rfl
    · exact hchange.refuse _ _ _ _
  · exact h.other (by simp)

theorem Inlining.Tells.visit {snapshot : Snapshot} {s s' : Inlining σ} {callee : FunctionId}
    (h : s.Tells fs) (hv : s.visit phase snapshot callee = .ok s') : s'.Tells fs := by
  obtain ⟨marked, -, rfl⟩ := map_eq_ok.1 hv
  split_ifs
  · exact List.foldlRecOn (motive := fun s : Inlining σ => s.Tells fs) _ _ h
      fun _ hs call _ => hs.attempt callee call
  · exact h

theorem bottomUp_tells {snapshot : Snapshot} {r r' : Run σ} {report : InlineReport}
    (h : r.log.Tells 0 0 fs) (hrun : bottomUp phase snapshot r = .ok (r', report)) :
    r'.log.Tells report.inlined report.failed fs := by
  obtain ⟨s, hvisits, heq⟩ := map_eq_ok.1 hrun
  cases heq
  refine foldlM_keeps (I := fun _ (s : Inlining σ) => s.Tells fs)
    (fun _ hs hv => hs.visit hv) ?_ hvisits
  exact h

theorem Scan.tells_attempt {s : Scan σ} (h : s.toInlining.Tells fs) (number : Nat)
    (caller callee : FunctionId) (site : CallSiteId) :
    (s.attempt phase number caller callee site).toInlining.Tells fs := by
  unfold attempt
  split_ifs
  · exact h
  · have hchange : (s.change (inline · site)).2.toInlining.Tells fs := h
    split <;> rename_i hs <;> rw [hs] at hchange
    · exact hchange.inlined rfl
    · exact hchange.refuse _ _ _ _

theorem Scan.tells_visit {number : Nat} {s s' : Scan σ} {e : CallEdge}
    (h : s.toInlining.Tells fs) (hv : s.visit phase number e = .ok s') :
    s'.toInlining.Tells fs := by
  unfold visit at hv
  split at hv
  · cases hv
    exact h
  · split_ifs at hv
    · cases hv
      exact h
    · obtain ⟨marked, -, rfl⟩ := map_eq_ok.1 hv
      split_ifs
      · exact tells_attempt h _ _ _ _
      · exact h

theorem Scan.tells_repeated (cap : Nat) : ∀ (left : Nat) {s : Scan σ} {r : Run σ}
    {report : InlineReport}, s.toInlining.Tells fs → s.repeated phase cap left = .ok (r, report) →
      r.log.Tells report.inlined report.failed fs
  | left + 1, s, r, report, h, hrun => by
    unfold repeated at hrun
    split at hrun
    · cases hrun
    · rename_i s₁ honce
      have hs₁ : s₁.toInlining.Tells fs := by
        refine foldlM_keeps (I := fun _ (s : Scan σ) => s.toInlining.Tells fs)
          (f := visit phase (cap - left)) (fun _ hs hv => tells_visit hs hv) ?_ honce
        exact h
      split_ifs at hrun
      · exact tells_repeated cap left hs₁ hrun
      · cases hrun
        exact hs₁

theorem Options.inlinePhase_tells (o : Options) {snapshot : Snapshot} {r r' : Run σ}
    {report : InlineReport} (h : r.log.Tells 0 0 fs)
    (hrun : o.inlinePhase snapshot r = .ok (r', report)) :
    r'.log.Tells report.inlined report.failed fs := by
  unfold inlinePhase at hrun
  split at hrun
  · exact bottomUp_tells h hrun
  · exact Scan.tells_repeated _ _ (s := { r with }) h hrun

end Inlining

section Sweeping

variable {i n phase : Nat}

/-- The sweep has recorded the removals that it lists, in their order. -/
def Sweep.Tells (i n : Nat) (s : Sweep σ) : Prop :=
  s.log.Tells i n (s.removed.toList.map fun k => some k.id)

theorem Sweep.Tells.remove {s : Sweep σ} (h : s.Tells i n) (f : FunctionId) :
    (s.remove phase f).Tells i n := by
  have hchange : (s.change (erase · f)).2.Tells i n := h
  unfold Sweep.remove
  simp only []
  split <;> rename_i hs <;> rw [hs] at hchange
  · exact hchange
  · unfold Tells
    rw [(foldl_release_keeps _ _).1, (foldl_release_keeps _ _).2, Array.toList_push,
      List.map_append]
    exact EventLog.Tells.removed hchange rfl

theorem Sweep.Tells.visit {s s' : Sweep σ} {f : FunctionId} (h : s.Tells i n)
    (hv : s.visit phase f = .ok s') : s'.Tells i n := by
  obtain ⟨removable, -, rfl⟩ := map_eq_ok.1 hv
  split_ifs
  · exact h.remove f
  · exact h

theorem Sweep.Tells.visitFrom : ∀ (fuel k : Nat) {s s' : Sweep σ}, s.Tells i n →
    visitFrom phase fuel k s = .ok s' → s'.Tells i n
  | 0, _, _, _, h, hv => by
    cases hv
    exact h
  | fuel + 1, k, s, s', h, hv => by
    unfold Sweep.visitFrom at hv
    split at hv
    · cases hv
      exact h
    · rename_i f _
      rcases hf : s.visit phase f with halt | s₁ <;> rw [hf] at hv
      · cases hv
      · exact visitFrom fuel (k + 1) (h.visit hf) hv

theorem Options.sweepPhase_tells (o : Options) {r r' : Run σ} {removed : List RemovedFunction}
    (h : r.log.Tells i n []) (hrun : o.sweepPhase r = .ok (r', removed)) :
    r'.log.Tells i n (removed.map fun k => some k.id) := by
  unfold sweepPhase at hrun
  split_ifs at hrun
  · obtain ⟨s, hvisits, heq⟩ := map_eq_ok.1 hrun
    cases heq
    exact Sweep.Tells.visitFrom _ 0 (s := Sweep.start r) h hvisits
  · cases hrun
    exact h

end Sweeping

section Lowering

variable (o : Options) {i n : Nat} {fs : List (Option FunctionId)}

theorem Options.tells_validateFunction {r r' : Run σ} {f : FunctionId} (h : r.log.Tells i n fs)
    (hv : o.validateFunction r f = .ok r') : r'.log.Tells i n fs := by
  obtain ⟨marked, -, hrest⟩ := bind_eq_ok.1 hv
  simp only [] at hrest
  split_ifs at hrest
  · cases hrest
    exact h
  · cases hrest
    exact h.other (by simp)

theorem Options.tells_diagnose (snapshot : Snapshot) (report : InlineReport) {r : Run σ}
    (h : r.log.Tells i n fs) : (o.diagnose snapshot report r).1.log.Tells i n fs := by
  unfold diagnose
  simp only []
  split_ifs
  · exact h
  · exact List.foldlRecOn (motive := fun r' : Run σ => r'.log.Tells i n fs) _ _ h
      fun _ hr _ _ => hr.other (by simp)
  · exact h.other (by simp)

/-- A report says what its log tells. -/
structure Outcome.Agrees (out : Outcome) : Prop where
  inlined : out.inlined = out.log.count .functionInlined
  failed : out.failed = out.log.count .inlineFailed
  removed : (out.log.ofKind .functionRemoved).map (·.function?) = out.removed.map fun k => some k.id
  changed : out.changed = out.stats.changed

theorem Outcome.Agrees.tells {out : Outcome} (h : out.Agrees) :
    out.log.Tells out.inlined out.failed (out.removed.map fun k => some k.id) :=
  ⟨h.inlined.symm, h.failed.symm, h.removed⟩

omit [Target σ] in
theorem Options.complete_agrees {report : InlineReport} (residue : Residue)
    {removed : List RemovedFunction} {r : Run σ}
    (h : r.log.Tells report.inlined report.failed (removed.map fun k => some k.id)) :
    (o.complete report residue removed r).2.Agrees := by
  have hlog : (o.complete report residue removed r).2.log.Tells report.inlined report.failed
      (removed.map fun k => some k.id) := h.other (by simp)
  refine ⟨hlog.inlined_eq.symm, hlog.failed_eq.symm, hlog.removed_eq, ?_⟩
  rw [Bool.eq_iff_iff, Outcome.stats, Stats.changed_ofLog, hlog.inlined_eq, hlog.count_removed]
  simp [complete, InlineReport.changed, List.length_pos_iff]

theorem lower_agrees {r r' : Run σ} {out : Outcome} (h : lower o r = .ok (r', out)) :
    out.Agrees := by
  obtain ⟨r₀, r₁, report, r₂, removed, hvalid, hinline, hsweep, hcomplete⟩ := (lower_ok o).1 h
  have hr₀ : r₀.log.Tells 0 0 [] :=
    foldlM_keeps (I := fun _ (r : Run σ) => r.log.Tells 0 0 [])
      (fun _ hr hv => o.tells_validateFunction hr hv) EventLog.tells_empty hvalid
  have hstart : (o.begin r₀).1.log.Tells 0 0 [] := hr₀.other (by simp)
  have hr₁ := o.inlinePhase_tells hstart hinline
  have hr₂ := o.sweepPhase_tells (o.tells_diagnose _ report hr₁) hsweep
  have hagrees := o.complete_agrees (o.diagnose (Snapshot.ofSource r₀.target) report r₁).2 hr₂
  rw [hcomplete] at hagrees
  exact hagrees

/-- What several phases report together is what their logs tell in a row. -/
structure Outcomes.Agrees (os : Outcomes) : Prop where
  inlined : os.inlined = (Stats.ofLog os.log).inlined
  removed : os.removed.length = (Stats.ofLog os.log).removed
  changed : os.changed = (Stats.ofLog os.log).changed

theorem Outcomes.Agrees.append {os : Outcomes} (h : os.Agrees) {out : Outcome} (hout : out.Agrees) :
    (⟨os.outcomes ++ [out]⟩ : Outcomes).Agrees := by
  have hcount : ∀ k, (⟨os.outcomes ++ [out]⟩ : Outcomes).log.count k
      = os.log.count k + out.log.count k := by
    intro k
    rw [← EventLog.count_merge]
    simp [log]
  refine ⟨?_, ?_, ?_⟩
  · have hsum : (⟨os.outcomes ++ [out]⟩ : Outcomes).inlined = os.inlined + out.inlined := by
      simp [Outcomes.inlined]
    rw [hsum, h.inlined, hout.inlined]
    exact (hcount _).symm
  · have hsum : (⟨os.outcomes ++ [out]⟩ : Outcomes).removed.length
        = os.removed.length + out.removed.length := by
      simp [Outcomes.removed]
    have hremoved := hout.tells.count_removed
    rw [List.length_map] at hremoved
    rw [hsum, h.removed, ← hremoved]
    exact (hcount _).symm
  · have hany : (⟨os.outcomes ++ [out]⟩ : Outcomes).changed = (os.changed || out.changed) := by
      simp [Outcomes.changed]
    rw [hany, h.changed, hout.changed, Bool.eq_iff_iff, Bool.or_eq_true]
    simp only [Outcome.stats, Stats.changed_ofLog, hcount]
    omega

theorem lowerAll_agrees {phases : List Nat} {r r' : Run σ} {os : Outcomes}
    (h : lowerAll o phases r = .ok (r', os)) : os.Agrees := by
  refine foldlM_keeps (f := lowerNext o) (I := fun _ (e : Run σ × Outcomes) => e.2.Agrees)
    (fun {pre p post e e'} _ he hnext => ?_) ⟨rfl, rfl, rfl⟩ h
  obtain ⟨r₁, out, hlower, -, houtcomes⟩ := lowerNext_ok o hnext
  have hagrees := he.append (lower_agrees _ hlower)
  rwa [← houtcomes] at hagrees

end Lowering

/-- Whatever the target does, a run that ends well reports what it has recorded, and so does a row
of them. -/
theorem reports_agree_with_logs (o : Options) (r : Run σ) :
    (∀ r' out, lower o r = .ok (r', out) → out.Agrees)
      ∧ ∀ phases r' os, lowerAll o phases r = .ok (r', os) → os.Agrees :=
  ⟨fun _ _ h => lower_agrees o h, fun _ _ _ h => lowerAll_agrees o h⟩

/-- A target that inlines `leaf` and with that loses `spare`, refuses to inline `stiff`, only says
that it inlines `ghost`, and does not part with `leaf`. -/
def Deviating.wayward : Deviating :=
  let m := (Module.build "wayward" [
    (({ name := "leaf" } : Function).withPhase 1, some [.op "work", .ret]),
    (({ name := "stiff" } : Function).withPhase 1, some [.ret]),
    (({ name := "ghost" } : Function).withPhase 1, some [.ret]),
    (({ name := "idle" } : Function).withPhase 1, none),
    (({ name := "spare" } : Function).withPhase 2, none),
    (({ name := "main" } : Function).withProtection,
      some [.call () (.direct ⟨0⟩), .call () (.direct ⟨1⟩), .call () (.direct ⟨2⟩), .ret])]).2
  { module := m
    deviation :=
      { refuse := [(⟨1⟩, "not now")]
        fake := [⟨2⟩]
        vanish := [(⟨0⟩, ⟨4⟩)]
        unerasable := [⟨0⟩] } }

theorem reports_agree_with_logs_wayward : ∃ r' os,
    lowerAll {} [1, 2] ({ target := .wayward } : Run Deviating) = .ok (r', os) ∧ os.Agrees
      ∧ os.inlined = 2 ∧ os.removed = ["idle"] ∧ r'.target.module.contains ⟨4⟩ = false
      ∧ ∃ r₁ out, lower { phase := 1 } ({ target := .wayward } : Run Deviating) = .ok (r₁, out)
        ∧ out.Agrees ∧ out.failed = 1 := by
  have hrow : (lowerAll {} [1, 2] ({ target := .wayward } : Run Deviating)).toOption.any
      (fun e => decide (e.2.inlined = 2 ∧ e.2.removed = ["idle"]
        ∧ e.1.target.module.contains ⟨4⟩ = false)) = true := by decide +kernel
  have hone : (lower { phase := 1 } ({ target := .wayward } : Run Deviating)).toOption.any
      (fun e => decide (e.2.failed = 1)) = true := by decide +kernel
  obtain ⟨⟨r', os⟩, h, hcheck⟩ := exists_ok_of_any hrow
  obtain ⟨⟨r₁, out⟩, h₁, hfailed⟩ := exists_ok_of_any hone
  obtain ⟨hinlined, hremoved, hgone⟩ := of_decide_eq_true hcheck
  have hagrees := (reports_agree_with_logs {} { target := .wayward }).2 [1, 2] r' os h
  have hagrees₁ := (reports_agree_with_logs { phase := 1 } { target := .wayward }).1 r₁ out h₁
  exact ⟨r', os, h, hagrees, hinlined, hremoved, hgone, r₁, out, h₁, hagrees₁,
    of_decide_eq_true hfailed⟩

end PhasedInlining
