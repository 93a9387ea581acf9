import PhasedInlining.Proofs.Code.Insertion
import PhasedInlining.Proofs.Code.Returns
import PhasedInlining.Proofs.Lowering.Acyclic
import PhasedInlining.Proofs.Splicing

/-!
# Splices and early returns

A splice drops the returns of the body that it copies and keeps the rest. If a return ends the body
that it stands in, what stands behind the first one is not executed in the callee, but it is in the
copy. So a splice puts the callee's body in place of the call, which makes no difference, and
inserts instructions into the body of the caller (`Module.Splices.inserts`).
-/

namespace PhasedInlining

open CallSource Target

namespace Module

section Splice

variable {m m' : Module} {s : CallSiteId} {caller callee : FunctionId} {g : Function}

theorem silent_iff {is : Body} : m.Silent is ↔ m.cut.Runs (Body.live is) [] := by
  constructor
  · rintro ⟨n, hn⟩
    obtain ⟨k, hshown, hended⟩ := m.exec_of_execFrames n [is]
    rw [List.flatMap_singleton, hn] at hshown hended
    exact ⟨k, Prod.ext hshown (hended rfl)⟩
  · rintro ⟨n, hn⟩
    obtain ⟨k, hshown, hended⟩ := m.execFrames_of_exec n [is]
    rw [List.flatMap_singleton, hn] at hshown hended
    exact ⟨k, Prod.ext hshown (hended rfl)⟩

theorem body?_setBody {f : FunctionId} (hf : (m.body? f).isSome) (is : Body) (k : FunctionId) :
    (m.setBody f is).body? k = if k = f then some is else m.body? k := by
  simp only [body?, function?_setBody]
  split_ifs
  · rcases hm : m.function? f with _ | h
    · simp [body?, hm] at hf
    · rfl
  · rfl

/-- A call behind a return is not executed, and neither is what a splice puts in its place. -/
theorem Splices.sameDisplay_of_not_live (h : m.Splices s m' caller callee g)
    (hdead : .call s (.direct callee) ∉ Body.live (m.instrsOf caller)) (f : FunctionId) :
    m.SameDisplay m' f := by
  obtain ⟨pre, post, hbody, -, hbody'⟩ := h.body
  obtain ⟨i, hi, hret⟩ : ∃ i ∈ pre, i.isRet := by
    by_contra hnone
    push Not at hnone
    rw [hbody, Body.live_append fun i hi => by simpa using hnone i hi] at hdead
    exact hdead (List.mem_append_right _ (by simp [Body.live, Instr.isRet]))
  have hsame : ∀ f, m'.cut.body? f = m.cut.body? f := by
    intro f
    rw [body?_cut, body?_cut]
    by_cases hf : f = caller
    · rw [hf, h.body?_caller, h.body?_caller_after, hbody, hbody', Option.map_some, Option.map_some,
        List.append_assoc, Body.live_append_of_ret hi hret, Body.live_append_of_ret hi hret]
    · rw [h.body?_other hf]
  refine m.sameDisplay_iff.2 (agreeOn_of_unfolds (fun f => ?_) f)
  rw [hsame]
  exact Unfolds.rel_refl _

/-- Where returns end bodies, a splice puts the callee's body in place of the call, and inserts what
stands behind the first return of this body. -/
theorem Splices.inserts (h : m.Splices s m' caller callee g)
    (hlive : .call s (.direct callee) ∈ Body.live (m.instrsOf caller)) :
    ∃ x is ks js, (∀ f, m.cut.AgreeOn x f) ∧ x.Inserts m'.cut caller is ks js
      ∧ Body.draft ks = Body.draft (Body.behind g.instrs) := by
  obtain ⟨pre, post, hbody, hpre, hbody'⟩ := h.body
  have hnoret : ∀ i ∈ pre, i.isRet = false := by
    intro i hi
    by_contra hret
    rw [hbody, Body.live_append_of_ret hi (by simpa using hret)] at hlive
    exact hpre (Body.mem_sites.2 ⟨_, (List.takeWhile_prefix _).subset hlive⟩)
  have hcaller : m.cut.body? caller = some (pre ++ .call s (.direct callee) :: Body.live post) := by
    rw [body?_cut, h.body?_caller, hbody, Option.map_some, Body.live_append hnoret]
    rfl
  have hcallee : m.cut.body? callee = some (Body.live g.instrs) := by
    rw [body?_cut, h.body?_callee, Option.map_some]
  have hcaller' : m'.cut.body? caller = some (pre ++ Body.issue m.nextSite (Body.live g.instrs)
      ++ Body.issue (m.nextSite + Body.callCount (Body.live g.instrs)) (Body.behind g.instrs)
      ++ Body.live post) := by
    have hcopy : ∀ i ∈ Body.issue m.nextSite (Body.withoutReturns g.instrs), i.isRet = false :=
      fun i => Body.isRet_of_mem_issue fun _ => Body.isRet_of_mem_withoutReturns
    rw [body?_cut, h.body?_caller_after, hbody', Option.map_some, List.append_assoc,
      Body.live_append hnoret, Body.live_append hcopy, Body.withoutReturns_eq, Body.issue_append]
    simp only [List.append_assoc]
  have hsome : (m'.cut.body? caller).isSome := by rw [hcaller']; rfl
  refine ⟨m'.cut.setBody caller (pre ++ Body.issue m.nextSite (Body.live g.instrs)
    ++ Body.live post), _, _, _, agreeOn_of_unfolds fun f => ?_,
    ⟨by rw [body?_setBody hsome, if_pos rfl], hcaller', fun f hf => ?_⟩, Body.draft_issue _ _⟩
  · rw [body?_setBody hsome]
    split_ifs with hf
    · rw [hf, hcaller, List.append_assoc]
      refine .some ((Unfolds.refl pre).append (.perform (by simp [perform, hcallee]) ?_))
      simp only [perform, hcallee]
      have hcopy := Unfolds.copy (m := m.cut) m.nextSite (Body.live g.instrs)
      rw [Body.withoutReturns_live] at hcopy
      exact hcopy.append (.refl _)
    · rw [body?_cut, body?_cut, h.body?_other hf]
      exact Unfolds.rel_refl _
  · rw [body?_setBody hsome, if_neg hf]

/-- The copy of what stands behind the first return shows no more than the original. -/
theorem silent_behind_iff {is ks : Body} (hks : Body.draft ks = Body.draft (Body.behind is)) :
    m.Silent (Body.behind is) ↔ m.cut.Runs ks [] := by
  have hlive : Body.live (Body.behind is) = Body.behind is :=
    Body.live_eq_self.2 fun _ => Body.isRet_of_mem_withoutReturns
  rw [silent_iff, hlive]
  simp only [Runs, m.cut.exec_of_draft_eq _ hks]

end Splice

/-- Where a return ends the body that it stands in, a call can be inlined without a difference if it
stands behind a return itself, or if what stands behind the first return of its callee shows
nothing and comes to an end. There is a difference in all other cases in which the call is in front
of all returns and the caller comes to an end. -/
theorem inline_early_returns {m : Module} {s : CallSiteId} {caller callee : FunctionId}
    {g : Function} (hcall : m.callAt? s = some (caller, .direct callee))
    (hg : m.function? callee = some g) (hdone : (inline m s).1 = .done) :
    (.call s (.direct callee) ∉ Body.live (m.instrsOf caller)
        ∨ (inline m s).2.Silent (Body.behind g.instrs) →
      ∀ f, m.SameDisplay (inline m s).2 f)
    ∧ (.call s (.direct callee) ∈ Body.live (m.instrsOf caller) → m.Completes caller →
      m.SameDisplay (inline m s).2 caller → (inline m s).2.Silent (Body.behind g.instrs)) := by
  obtain ⟨caller', g', hok⟩ := inline_done.1 hdone
  rcases m.splice_cases s with ⟨r, hr, -⟩ | ⟨_, _, _, -, hcall', -, hs⟩
  · exact nomatch hr.symm.trans hok
  cases hcall'.symm.trans hcall
  cases hs.callee_eq.symm.trans hg
  rw [target_inline]
  refine ⟨fun h f => ?_, fun hlive hcompletes hsame => ?_⟩
  · by_cases hlive : .call s (.direct callee) ∈ Body.live (m.instrsOf caller)
    · obtain ⟨x, is, ks, js, hagree, hinserts, hks⟩ := hs.inserts hlive
      have hsilent := (silent_behind_iff hks).1 (h.resolve_left (not_not_intro hlive))
      exact m.sameDisplay_iff.2 ((hagree f).trans (hinserts.agreeOn hsilent f).symm)
    · exact hs.sameDisplay_of_not_live hlive f
  · obtain ⟨x, is, ks, js, hagree, hinserts, hks⟩ := hs.inserts hlive
    obtain ⟨t, ht⟩ := (m.completes_iff.1 hcompletes).runs
    have hbefore := (hagree caller).runs ht
    have hafter := (m.sameDisplay_iff.1 hsame).runs ht
    rw [instrsOf_eq_getD, hinserts.body, Option.getD_some] at hbefore
    rw [instrsOf_eq_getD, hinserts.body', Option.getD_some] at hafter
    exact (silent_behind_iff hks).2 (hinserts.runs_nil hbefore hafter)

/-- A function that returns before its last instruction, and a function that calls it. -/
def early : Module :=
  (build "early" [
    ({ name := "step" }, some [.op "a", .ret, .op "b"]),
    ({ name := "main" }, some [.call () (.direct ⟨0⟩), .ret])]).2

theorem early_wellFormed : early.WellFormed := .build _ _

theorem early_runs : early.cut.Runs (early.cut.instrsOf ⟨1⟩) [.op "a"] :=
  ⟨3, by decide +kernel⟩

/-- Whatever returns at its end alone can be inlined. What returns early makes a difference if
something can be seen of what stands behind. -/
theorem inline_early_returns_early :
    (∀ f, layered.SameDisplay (inline layered ⟨2⟩).2 f)
      ∧ ¬ early.SameDisplay (inline early ⟨0⟩).2 ⟨1⟩ := by
  constructor
  · have hleaf : (layered.function? ⟨0⟩).any (Body.behind ·.instrs = []) = true := by
      decide +kernel
    obtain ⟨g, hg, hbehind⟩ := (Option.any_eq_true _ _).1 hleaf
    have hnone : Body.behind g.instrs = [] := by simpa using hbehind
    have hcall : layered.callAt? ⟨2⟩ = some (⟨2⟩, .direct ⟨0⟩) := by decide +kernel
    refine (inline_early_returns hcall hg (by decide +kernel)).1 (.inr ?_)
    rw [hnone]
    exact ⟨1, rfl⟩
  · have hstep : (early.function? ⟨0⟩).any (Body.behind ·.instrs = [.op "b"]) = true := by
      decide +kernel
    obtain ⟨g, hg, hbehind⟩ := (Option.any_eq_true _ _).1 hstep
    have hsome : Body.behind g.instrs = [.op "b"] := by simpa using hbehind
    have hcall : early.callAt? ⟨0⟩ = some (⟨1⟩, .direct ⟨0⟩) := by decide +kernel
    intro hsame
    have hsilent := (inline_early_returns hcall hg (by decide +kernel)).2 (by decide +kernel)
      ⟨5, by decide +kernel⟩ hsame
    rw [hsome] at hsilent
    have hshown := (silent_iff.1 hsilent).unique ⟨1, rfl⟩
    simp at hshown

/-- A call of a function that returns early is inlined, and an instruction that was not executed
before is executed after. -/
theorem early_return_lost : early.WellFormed ∧ (inline early ⟨0⟩).1 = .done
    ∧ (inline early ⟨0⟩).2.Displays ⟨1⟩ [.op "a", .op "b"]
    ∧ ¬ early.Displays ⟨1⟩ [.op "a", .op "b"] := by
  refine ⟨early_wellFormed, by decide +kernel, ⟨6, by decide +kernel⟩, fun hshown => ?_⟩
  have hprefix := early_runs.emits_iff.1 (early.displays_iff.1 hshown)
  simp at hprefix

end Module

end PhasedInlining
