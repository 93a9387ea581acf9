import PhasedInlining.Proofs.Lowering.CallCounts
import PhasedInlining.Proofs.Lowering.Expansion

/-!
# Scanning again

A scan leaves a call alone if its callee must not be copied, calls itself or calls the caller
(`Module.Spares`), and never tries it again. It need not: what is spliced later brings no callee
that may be copied, takes away no call of a function to itself, and a call back to the caller could
go only by a splice that the call left alone itself rules out (`Module.Spares.splice`). So a scan
that has changed nothing leaves only calls that the next one would leave as well, or for which
handles have run out (`rescan_settles`).

Without call cycles nothing is left alone but what must not be copied (`flattens_rescan`).
-/

namespace PhasedInlining

open CallSource Target
open Relation (TransGen)

namespace Module

/-- A scan leaves calls of `c` in `f` alone. -/
def Spares (m : Module) (f c : FunctionId) : Prop :=
  (∃ g, m.function? c = some g ∧ g.flags.noInline) ∨ m.Calls c c ∨ m.Calls c f

variable {m m' : Module} {f c x y : FunctionId} {s : CallSiteId} {k : Function}

theorem Spares.splice (h : m.Spares f c) (hs : m.Splices s m' x y k) (hyx : ¬ m.Calls y x)
    (hfc : ∃ z, .call z (.direct c) ∈ m.instrsOf f) : m'.Spares f c := by
  rcases h with ⟨g, hg, hno⟩ | hself | hback
  · obtain ⟨g', hg', hgg'⟩ := function?_of_header? (hs.header?_eq c).symm hg
    exact .inl ⟨g', hg', by rwa [← Function.flags_of_header hgg']⟩
  · refine .inr (.inl ((hs.bypasses.kept hself).resolve_left ?_))
    rintro ⟨rfl, rfl⟩
    exact hs.ne rfl
  · refine .inr (.inr ((hs.bypasses.kept hback).resolve_left ?_))
    rintro ⟨rfl, rfl⟩
    exact hyx ⟨(hasBody_of_calls (.single hback)).1, hfc⟩

theorem spares_of_refused (hwf : m.WellFormed) (hc : m.hasBody c)
    (hx : .call s (.direct c) ∈ m.instrsOf f) {reason : Refusal}
    (hreason : m.spliceable s = .error reason) : m.Spares f c ∨ reason = .exhausted := by
  obtain ⟨g, hg⟩ := contains_iff.1 (contains_of_hasBody hc)
  by_cases hne : c = f
  · subst hne
    exact .inl (.inr (.inl ⟨hc, s, hx⟩))
  · rcases hno : g.flags.noInline with _ | _
    · have hbody : g.hasBody := by simpa [hasBody, hg] using hc
      exact .inr (exhausted_of_refused (hwf.callAt?_iff.2 hx) hne hg hbody hno hreason).1
    · exact .inl (.inl ⟨g, hg, hno⟩)

end Module

namespace Scan

/-- What an attempt to inline a call met by a scan can come to. -/
inductive Attempts (caller callee : FunctionId) (site : CallSiteId) (s s' : Scan Module) : Prop
  | left (target : s'.target = s.target) (refused : s'.refused = s.refused.insert site)
    (calls : s'.calls = s.calls) (changed : s'.changed = s.changed)
    (inlined : s'.inlined = s.inlined)
    (reason : s.calls.contains callee callee ∨ s.calls.contains callee caller
      ∨ ∃ reason, s.target.spliceable site = .error reason
        ∧ (reason = .exhausted → s'.log.Starved callee))
  | done (f : FunctionId) (g : Function) (splices : s.target.Splices site s'.target f callee g)
    (self : ¬ s.calls.contains callee callee) (back : ¬ s.calls.contains callee caller)
    (refused : s'.refused = s.refused) (calls : s'.calls = s.calls.splice caller callee)
    (changed : s'.changed = true)

theorem attempt_cases (phase number : Nat) (s : Scan Module) (caller callee : FunctionId)
    {site : CallSiteId} (hsite : s.target.currentCallee? site = some callee) :
    Attempts caller callee site s (s.attempt phase number caller callee site) := by
  unfold attempt
  split_ifs with hguard
  · rw [Bool.or_eq_true] at hguard
    exact .left rfl rfl rfl rfl rfl (hguard.imp_right .inl)
  · rw [Bool.or_eq_true, not_or] at hguard
    rcases Module.inline_cases hsite with ⟨reason, hreason, hi⟩ | ⟨f, g, m, -, hi, hs⟩
    · have hchange : s.change (inline · site) = (.refused reason.message, s) := by
        simp [Scan.change, Inlining.change, Run.change, hi]
      rw [hchange]
      refine .left rfl rfl rfl rfl rfl (.inr (.inr ⟨reason, hreason, ?_⟩))
      rintro rfl
      exact s.starved_refuse _ _ _ _
    · have hchange : s.change (inline · site) = (.done, { s with target := m }) := by
        simp [Scan.change, Inlining.change, Run.change, hi]
      rw [hchange]
      exact .done f g hs hguard.1 hguard.2 rfl rfl rfl

/-- A visit leaves a call alone, for a reason, or attempts to inline it. -/
theorem visit_cases {phase number : Nat} {s s' : Scan Module} {e : CallEdge}
    (hvisit : s.visit phase number e = .ok s') :
    (s' = s ∧ ∀ c, e.target = .direct c → s.target.hasBody c →
        isMarked phase s.target c = .ok true → s.target.currentCallee? e.site = some c →
          e.site ∈ s.refused)
      ∨ ∃ c, e.site ∉ s.refused ∧ s.target.hasBody c ∧ isMarked phase s.target c = .ok true
        ∧ s.target.currentCallee? e.site = some c
        ∧ s' = s.attempt phase number e.caller c e.site := by
  unfold visit at hvisit
  split at hvisit
  · rename_i ht
    cases hvisit
    refine .inl ⟨rfl, fun c hc => ?_⟩
    cases ht.symm.trans hc
  · rename_i c ht
    split_ifs at hvisit with hskip
    · cases hvisit
      refine .inl ⟨rfl, fun d hd hbody _ _ => ?_⟩
      cases ht.symm.trans hd
      simpa [CallSource.hasBody, hbody] using hskip
    · obtain ⟨marked, hm, heq⟩ := map_eq_ok.1 hvisit
      have hmarked := Run.check_eq_ok.1 hm
      split_ifs at heq with hgo
      · simp only [Bool.and_eq_true, beq_iff_eq] at hgo
        simp only [Bool.or_eq_true, not_or, Bool.not_eq_true', Bool.not_eq_false] at hskip
        refine .inr ⟨c, by simpa using hskip.1, hskip.2, ?_, hgo.2, heq.symm⟩
        rw [hmarked, hgo.1]
      · refine .inl ⟨heq.symm, fun d hd _ hd' hcallee => ?_⟩
        cases ht.symm.trans hd
        cases hmarked.symm.trans hd'
        simp [CallSource.currentCallee?, hcallee] at hgo

end Scan

section Scans

variable {phase : Nat} {m₀ m : Module}

/-- What holds of a scan, and of all scans together, of a module that was `m₀` at the start. -/
structure Scanned (phase : Nat) (m₀ : Module) (s : Scan Module) : Prop where
  inlined : Inlined phase m₀ s.target
  loops : ∀ {f}, s.target.Calls f f → m₀.Calls f f
  issued : ∀ x ∈ s.refused, x.value < s.target.nextSite
  spared : ∀ {f c x}, .call x (.direct c) ∈ s.target.instrsOf f → x ∈ s.refused →
    s.target.Spares f c ∨ s.log.Starved c

/-- What holds of a scan that began at `m` and has come past the calls `done`. -/
structure Scanning (phase : Nat) (m₀ m : Module) (done : List CallEdge) (s : Scan Module) : Prop
    extends Scanned phase m₀ s where
  calls : s.calls.Exact s.target
  recorded : ∀ e ∈ done, e ∈ m.callEdges
  next : m.nextSite ≤ s.target.nextSite
  origin : ∀ {f t x}, .call x t ∈ s.target.instrsOf f → x.value < m.nextSite →
    .call x t ∈ m.instrsOf f
  passed : ∀ e ∈ done, ∀ {f c}, .call e.site (.direct c) ∈ s.target.instrsOf f → m₀.hasBody c →
    isMarked phase m₀ c = .ok true → e.site ∈ s.refused
  same : s.changed = false → s.target = m

variable {done : List CallEdge} {s s' : Scan Module} {e : CallEdge} {c f : FunctionId}

namespace Scanning

variable (h : Scanning phase m₀ m done s)
include h

/-- A call that was there when the scan began is where it was. -/
theorem call_at (hm : m.WellFormed) (he : e ∈ m.callEdges) {t : CallTarget}
    (hx : .call e.site t ∈ s.target.instrsOf f) : f = e.caller ∧ t = e.target := by
  have hcall := hm.mem_callEdges.1 he
  exact hm.call_unique hcall (h.origin hx (hm.site_lt_of_mem hcall))

theorem call_mem (hm : m.WellFormed) (he : e ∈ m.callEdges)
    (hsite : s.target.currentCallee? e.site = some c) :
    .call e.site (.direct c) ∈ s.target.instrsOf e.caller := by
  obtain ⟨f, hx⟩ := h.inlined.wf.currentCallee?_iff.1 hsite
  obtain ⟨rfl, -⟩ := h.call_at hm he hx
  exact hx

theorem hasBody_caller (hm : m.WellFormed) (he : e ∈ m.callEdges)
    (hsite : s.target.currentCallee? e.site = some c) : m₀.hasBody e.caller := by
  rw [← Module.hasBody_of_header? (h.inlined.header e.caller)]
  exact Module.hasBody_of_mem (h.call_mem hm he hsite)

theorem caller_eq (hm : m.WellFormed) (he : e ∈ m.callEdges) {m' : Module} {k : Function}
    (hs : s.target.Splices e.site m' f c k) : f = e.caller := by
  obtain ⟨pre, post, hbody, -⟩ := hs.body
  exact (h.call_at hm he (t := .direct c) (by simp [hbody])).1

theorem calls_iff (hc : m₀.hasBody c) : s.calls.contains f c ↔ s.target.Calls f c := by
  rw [h.calls.contains_iff, Module.Calls, Module.hasBody_of_header? (h.inlined.header c), hc]
  simp

theorem attempt_left (he : e ∈ m.callEdges)
    (hx : .call e.site (.direct c) ∈ s.target.instrsOf e.caller)
    (target : s'.target = s.target) (refused : s'.refused = s.refused.insert e.site)
    (calls : s'.calls = s.calls) (changed : s'.changed = s.changed)
    (hlog : s.log.Grows s'.log) (hspared : s.target.Spares e.caller c ∨ s'.log.Starved c) :
    Scanning phase m₀ m (done ++ [e]) s' := by
  have hmem : ∀ x, x ∈ s'.refused ↔ e.site = x ∨ x ∈ s.refused := by
    intro x
    rw [refused, Std.TreeSet.mem_insert, Std.LawfulEqCmp.compare_eq_iff_eq]
  refine ⟨⟨?_, ?_, fun x hx' => ?_, fun {f d x} hx' hxr => ?_⟩, ?_, fun e' he' => ?_, ?_,
    fun hx' hlt => ?_, fun e' he' f d hx' hd hmarked => ?_, ?_⟩
  · rw [target]
    exact h.inlined
  · rw [target]
    exact h.loops
  · rw [target]
    rcases (hmem x).1 hx' with rfl | hx'
    · exact h.inlined.wf.site_lt_of_mem hx
    · exact h.issued x hx'
  · rw [target] at hx' ⊢
    rcases (hmem x).1 hxr with rfl | hxr
    · obtain ⟨rfl, heq⟩ := h.inlined.wf.call_unique hx hx'
      cases heq
      exact hspared
    · exact (h.spared hx' hxr).imp_right (·.grows hlog)
  · rw [calls, target]
    exact h.calls
  · rcases List.mem_append.1 he' with he' | he'
    · exact h.recorded e' he'
    · rwa [List.mem_singleton.1 he']
  · rw [target]
    exact h.next
  · rw [target] at hx'
    exact h.origin hx' hlt
  · rw [target] at hx'
    rcases List.mem_append.1 he' with he' | he'
    · exact (hmem _).2 (.inr (h.passed e' he' hx' hd hmarked))
    · exact (hmem _).2 (.inl (by rw [List.mem_singleton.1 he']))
  · rw [changed, target]
    exact h.same

/-- A call that is inlined is gone, and the calls that come for it have handles that none of the
calls before has. -/
theorem attempt_done (hm : m.WellFormed) (he : e ∈ m.callEdges)
    (hmarked : isMarked phase m₀ c = .ok true) {k : Function}
    (splices : s.target.Splices e.site s'.target e.caller c k) (hwf : s'.target.WellFormed)
    (hback : ¬ s.target.Calls c e.caller) (refused : s'.refused = s.refused)
    (calls : s'.calls = s.calls.splice e.caller c) (changed : s'.changed = true)
    (hlog : s.log.Grows s'.log) : Scanning phase m₀ m (done ++ [e]) s' := by
  have hnext := splices.nextSite
  have hle := h.next
  have hold : ∀ {f t x}, .call x t ∈ s'.target.instrsOf f → x.value < s.target.nextSite →
      .call x t ∈ s.target.instrsOf f ∧ x ≠ e.site := by
    intro f t x hx hlt
    rcases splices.mem_call h.inlined.wf hx with hx | ⟨⟨-, hnew⟩, -⟩
    · exact hx
    · omega
  refine ⟨⟨h.inlined.splice splices hwf hmarked, fun hloop => ?_, fun x hx => ?_,
    fun {f d x} hx hxr => ?_⟩, ?_, fun e' he' => ?_, by omega, fun hx hlt => ?_,
    fun e' he' f d hx hd hdm => ?_, fun hun => ?_⟩
  · refine h.loops ((splices.bypasses.origin hloop).resolve_right ?_)
    rintro ⟨rfl, hcaller⟩
    exact hback hcaller
  · rw [refused] at hx
    have hlt := h.issued x hx
    omega
  · rw [refused] at hxr
    have hx' := (hold hx (h.issued x hxr)).1
    exact (h.spared hx' hxr).imp (·.splice splices hback ⟨x, hx'⟩) (·.grows hlog)
  · rw [calls]
    exact h.calls.splice splices
  · rcases List.mem_append.1 he' with he' | he'
    · exact h.recorded e' he'
    · rwa [List.mem_singleton.1 he']
  · exact h.origin (hold hx (by omega)).1 hlt
  · have hlt : ∀ e ∈ m.callEdges, e.site.value < s.target.nextSite := fun e he =>
      Nat.lt_of_lt_of_le (hm.site_lt_of_mem (hm.mem_callEdges.1 he)) hle
    rw [refused]
    rcases List.mem_append.1 he' with he' | he'
    · exact h.passed e' he' (hold hx (hlt e' (h.recorded e' he'))).1 hd hdm
    · rw [List.mem_singleton.1 he'] at hx
      exact absurd rfl (hold hx (hlt e he)).2
  · cases changed.symm.trans hun

theorem attempt (hm : m.WellFormed) (number : Nat) (he : e ∈ m.callEdges) (hc : m₀.hasBody c)
    (hmarked : isMarked phase m₀ c = .ok true)
    (hsite : s.target.currentCallee? e.site = some c) :
    Scanning phase m₀ m (done ++ [e]) (s.attempt phase number e.caller c e.site) := by
  have hlog := s.grows_attempt phase number e.caller c e.site
  have hwf : (s.attempt phase number e.caller c e.site).target.WellFormed :=
    Scan.attempt_keeps (fun t x ht => t.target_inline x ▸ ht.splice x) number s _ _ _
      h.inlined.wf
  have hx := h.call_mem hm he hsite
  have hcaller := h.hasBody_caller hm he hsite
  cases Scan.attempt_cases phase number s e.caller c hsite with
  | left target refused calls changed _ reason =>
    refine h.attempt_left he hx target refused calls changed hlog ?_
    rcases reason with hself | hback | ⟨reason, hreason, hstarved⟩
    · exact .inl (.inr (.inl ((h.calls_iff hc).1 hself)))
    · exact .inl (.inr (.inr ((h.calls_iff hcaller).1 hback)))
    · rw [← Module.hasBody_of_header? (h.inlined.header c)] at hc
      exact (Module.spares_of_refused h.inlined.wf hc hx hreason).imp_right hstarved
  | done f g splices _ back refused calls changed =>
    obtain rfl : f = e.caller := h.caller_eq hm he splices
    rw [h.calls_iff hcaller] at back
    exact h.attempt_done hm he hmarked splices hwf back refused calls changed hlog

theorem visit (hm : m.WellFormed) {number : Nat} (he : e ∈ m.callEdges)
    (hvisit : s.visit phase number e = .ok s') : Scanning phase m₀ m (done ++ [e]) s' := by
  rcases Scan.visit_cases hvisit with ⟨rfl, hskip⟩ | ⟨c, -, hbody, hmarked, hsite, rfl⟩
  · refine { h with recorded := fun e' he' => ?_, passed := fun e' he' f c hx hc hmarked => ?_ }
    · rcases List.mem_append.1 he' with he' | he'
      · exact h.recorded e' he'
      · rwa [List.mem_singleton.1 he']
    · rcases List.mem_append.1 he' with he' | he'
      · exact h.passed e' he' hx hc hmarked
      · rw [List.mem_singleton.1 he'] at hx ⊢
        rw [← Module.hasBody_of_header? (h.inlined.header c)] at hc
        rw [← h.inlined.isMarked_eq] at hmarked
        exact hskip c (h.call_at hm he hx).2.symm hc hmarked
          (h.inlined.wf.currentCallee?_iff.2 ⟨f, hx⟩)
  · rw [h.inlined.isMarked_eq] at hmarked
    rw [Module.hasBody_of_header? (h.inlined.header c)] at hbody
    exact h.attempt hm number he hbody hmarked hsite

end Scanning

theorem Scanned.start (h : Scanned phase m₀ s) : Scanning phase m₀ s.target []
    { s with calls := .ofEdges s.target.callEdges, changed := false } :=
  ⟨⟨h.inlined, h.loops, h.issued, h.spared⟩, CallCounts.exact_ofEdges h.inlined.wf, by simp,
    Nat.le_refl _, fun hx _ => hx, by simp, fun _ => rfl⟩

theorem Scanned.once (h : Scanned phase m₀ s) {number : Nat} (hs : s.once phase number = .ok s') :
    Scanning phase m₀ s.target s.target.callEdges s' :=
  foldlM_keeps (I := Scanning phase m₀ s.target)
    (fun hedges hscan hvisit => hscan.visit h.inlined.wf (by simp [hedges]) hvisit) h.start hs

/-- `m` is `m₀` with calls of functions of the phase replaced, and a scan leaves it as it is, but
for calls that were refused for want of handles. -/
structure Settles (phase : Nat) (m₀ m : Module) (log : EventLog) : Prop
    extends Inlined phase m₀ m where
  loops : ∀ {f}, m.Calls f f → m₀.Calls f f
  left : ∀ {f c x}, .call x (.direct c) ∈ m.instrsOf f → m₀.hasBody c →
    isMarked phase m₀ c = .ok true → m.Spares f c ∨ log.Starved c

theorem Scanned.repeated {cap : Nat} {r' : Run Module} {report : InlineReport} :
    ∀ {left : Nat} {s : Scan Module}, Scanned phase m₀ s →
      s.repeated phase cap left = .ok (r', report) → Settles phase m₀ r'.target r'.log
  | 0, s, h, hs => by cases hs
  | left + 1, s, h, hs => by
    unfold Scan.repeated at hs
    rcases ho : s.once phase (cap - left) with halt | s₁ <;> rw [ho] at hs
    · cases hs
    · have hscan := h.once ho
      simp only [] at hs
      split_ifs at hs with hchanged
      · exact Scanned.repeated hscan.toScanned hs
      · cases hs
        have hsame := hscan.same (by simpa using hchanged)
        refine ⟨hscan.inlined, hscan.loops, fun {f c x} hx hc hmarked => hscan.spared hx ?_⟩
        refine hscan.passed ⟨f, .direct c, x⟩ ?_ hx hc hmarked
        rw [hsame] at hx
        exact h.inlined.wf.mem_callEdges.2 hx

theorem Scanned.refl {r : Run Module} (hwf : r.target.WellFormed) :
    Scanned phase r.target ({ r with } : Scan Module) :=
  ⟨.refl hwf, id, fun x hx => by simp at hx, fun _ hx => by simp at hx⟩

theorem rescan_settles {cap : Nat} {r r' : Run Module} {report : InlineReport}
    (hwf : r.target.WellFormed) (h : rescan phase cap r = .ok (r', report)) :
    Settles phase r.target r'.target r'.log :=
  (Scanned.refl hwf).repeated h

/-- Without call cycles, scanning again replaces all calls that may be. -/
theorem flattens_rescan {cap : Nat} {r r' : Run Module} {report : InlineReport}
    (hwf : r.target.WellFormed) (hacyclic : ∀ f, ¬ TransGen r.target.Calls f f)
    (h : rescan phase cap r = .ok (r', report)) : Flattens phase r.target r'.target r'.log := by
  have hsettles := rescan_settles hwf h
  refine ⟨hsettles.toInlined, fun {f c x} hx hc => ?_⟩
  have hpath := hsettles.reaches hx hc.hasBody
  refine (hsettles.left hx hc.hasBody hc.1).resolve_left ?_
  rintro (⟨g, hg, hno⟩ | hself | hback)
  · cases hno.symm.trans (hsettles.noInline_eq hc hg)
  · exact hacyclic c (hsettles.cycles.within hself)
  · exact hacyclic c ((hsettles.cycles.within hback).trans hpath)

end Scans

end PhasedInlining
