import PhasedInlining.Lowering.BottomUp
import PhasedInlining.Proofs.CallGraph.Drain
import PhasedInlining.Proofs.Lowering.Passes

/-!
# One visit of each function is enough

A snapshot knows nothing of the calls that splicing copies. It need not: when a function is visited,
the calls in its body to functions with bodies all go to functions visited before, so a copy of the
body brings no call of a function still to be visited (`Visited.origin`). After its visit the calls
of a function of the phase that are left cannot be inlined, and none is added that can
(`Visited.stuck`). Calls of functions that are never visited stay where they are (`Visited.kept`).
-/

namespace PhasedInlining

open CallSource Target

namespace Module

section Header

variable {m m' : Module} {f : FunctionId} (h : m'.header? f = m.header? f)
include h

theorem phaseOf_of_header? : phaseOf m' f = phaseOf m f := by
  have htag : phaseTag? m' f = phaseTag? m f := by
    have heq : ∀ m : Module, phaseTag? m f = (m.header? f).bind (·.phaseTag?) := by
      intro m
      simp only [phaseTag?, header?, Option.bind_map]
      rfl
    rw [heq, heq, h]
  unfold phaseOf
  rw [htag]

theorem isMarked_of_header? (phase : Nat) : isMarked phase m' f = isMarked phase m f := by
  unfold isMarked
  rw [phaseOf_of_header? h]

theorem isProtected_of_header? : isProtected m' f = isProtected m f := by
  have heq : ∀ m : Module, isProtected m f = (m.header? f).any (·.isProtected) := by
    intro m
    simp only [isProtected, header?, Option.any_map]
    rfl
  rw [heq, heq, h]

theorem hasBody_of_header? : m'.hasBody f = m.hasBody f := by
  have heq : ∀ m : Module, m.hasBody f = (m.header? f).any (·.hasBody) := by
    intro m
    simp [Module.hasBody, header?, Option.any_map, Function.header, Function.hasBody]
  rw [heq, heq, h]

end Header

section Splice

variable {m m' : Module} {s : CallSiteId} {caller callee : FunctionId} {g : Function}

/-- After a splice a call is one that was there before, and not the one replaced, or the caller's
copy of a call of the callee, under a new handle. -/
theorem Splices.mem_call (hwf : m.WellFormed) (h : m.Splices s m' caller callee g)
    {f : FunctionId} {x : CallSiteId} {t : CallTarget} (hx : .call x t ∈ m'.instrsOf f) :
    (.call x t ∈ m.instrsOf f ∧ x ≠ s)
      ∨ (f = caller ∧ m.nextSite ≤ x.value) ∧ ∃ y, .call y t ∈ m.instrsOf callee := by
  obtain ⟨pre, post, hbody, hpre, hbody'⟩ := h.body
  have hsites := hwf.sites_nodup caller
  rw [sitesIn, hbody, Body.sites_append, Body.sites_call_cons] at hsites
  by_cases hf : f = caller
  · subst hf
    rw [hbody', List.mem_append, List.mem_append] at hx
    rw [hbody]
    rcases hx with (hx | hx) | hx
    · refine .inl ⟨List.mem_append_left _ hx, ?_⟩
      rintro rfl
      exact hpre (Body.mem_sites.2 ⟨t, hx⟩)
    · obtain ⟨y, hy⟩ := Body.mem_issue hx
      have hfresh := Body.mem_sites.2 ⟨t, hx⟩
      rw [Body.sites_issue, Body.mem_range'_map] at hfresh
      rw [instrsOf_of_function? h.callee_eq]
      exact .inr ⟨⟨rfl, hfresh.1⟩, y, List.mem_of_mem_filter hy⟩
    · refine .inl ⟨List.mem_append_right _ (List.mem_cons_of_mem _ hx), ?_⟩
      rintro rfl
      have hpost := (List.nodup_cons.1 (List.nodup_append'.1 hsites).2.1).1
      exact hpost (Body.mem_sites.2 ⟨t, hx⟩)
  · rw [h.instrsOf_other hf] at hx
    refine .inl ⟨hx, ?_⟩
    rintro rfl
    have hcaller : m.owners[x]? = some caller := hwf.owner_of_mem (t := .direct callee)
      (by simp [hbody])
    rw [hwf.owner_of_mem hx, Option.some.injEq] at hcaller
    exact hf hcaller

theorem target_inline (m : Module) (s : CallSiteId) :
    (Target.inline m s).2 = (m.splice s).2 := by
  simp only [Target.inline]
  rcases m.splice s with ⟨_ | _, _⟩ <;> rfl

/-- A module that is asked to inline a call splices it, or refuses for a reason. -/
theorem inline_cases (hsite : m.currentCallee? s = some callee) :
    (∃ reason, m.spliceable s = .error reason ∧ inline m s = (.refused reason.message, m))
      ∨ ∃ caller g m', m.spliceable s = .ok (caller, g) ∧ inline m s = (.done, m')
        ∧ m.Splices s m' caller callee g := by
  rcases splice_cases m s with ⟨reason, hreason, hs⟩ | ⟨f, c, g, hok, hcall, hnone, hs⟩
  · exact .inl ⟨reason, hreason, by simp [Target.inline, hs]⟩
  · obtain ⟨f', hcall'⟩ := currentCallee?_eq_some.1 hsite
    cases hcall.symm.trans hcall'
    rcases he : m.splice s with ⟨_ | reason, m'⟩
    · rw [he] at hs
      exact .inr ⟨f, g, m', hok, by simp [Target.inline, he], hs⟩
    · simp [he] at hnone

/-- A splice takes away the one call that it replaces. -/
theorem Splices.mem_of_ne (h : m.Splices s m' caller callee g) {f : FunctionId}
    {i : Instr CallSiteId} (hi : i ≠ .call s (.direct callee)) (hmem : i ∈ m.instrsOf f) :
    i ∈ m'.instrsOf f := by
  by_cases hf : f = caller
  · subst hf
    obtain ⟨pre, post, hbody, -, hbody'⟩ := h.body
    rw [hbody] at hmem
    rw [hbody']
    simp only [List.mem_append, List.mem_cons, hi, false_or] at hmem ⊢
    rcases hmem with hmem | hmem
    · exact .inl (.inl hmem)
    · exact .inr hmem
  · rwa [h.instrsOf_other hf]

/-- A splice removes no call of another function than the callee. -/
theorem Splices.mem_call_of_ne (h : m.Splices s m' caller callee g)
    {f c : FunctionId} {x : CallSiteId} (hc : c ≠ callee)
    (hx : .call x (.direct c) ∈ m.instrsOf f) :
    .call x (.direct c) ∈ m'.instrsOf f :=
  h.mem_of_ne (by simp [hc]) hx

end Splice

end Module

/-- Whether a call of `f` was refused for want of handles for the calls in its body. -/
def EventLog.Starved (l : EventLog) (f : FunctionId) : Prop :=
  ∃ e ∈ l.events, e.kind = .inlineFailed ∧ e.function? = some f
    ∧ (": " ++ Refusal.exhausted.message).toList <:+ e.message.toList

instance (l : EventLog) (f : FunctionId) : Decidable (l.Starved f) :=
  inferInstanceAs (Decidable (∃ e ∈ l.events, e.kind = .inlineFailed ∧ e.function? = some f
    ∧ (": " ++ Refusal.exhausted.message).toList <:+ e.message.toList))

theorem EventLog.Starved.grows {l l' : EventLog} {f : FunctionId} (h : l.Starved f)
    (hl : l.Grows l') : l'.Starved f := by
  obtain ⟨e, he, hk⟩ := h
  exact ⟨e, Array.mem_toList_iff.1 (hl.subset (Array.mem_toList_iff.2 he)), hk⟩

namespace Inlining

/-- What an attempt to inline a recorded call can come to. -/
inductive Attempts (callee : FunctionId) (site : CallSiteId) (s s' : Inlining Module) : Prop
  | stale (hsite : s.target.currentCallee? site ≠ some callee) (target : s'.target = s.target)
    (inlined : s'.inlined = s.inlined)
  | refused (reason : Refusal) (hsite : s.target.currentCallee? site = some callee)
    (hreason : s.target.spliceable site = .error reason) (target : s'.target = s.target)
    (inlined : s'.inlined = s.inlined) (starved : reason = .exhausted → s'.log.Starved callee)
  | done (caller : FunctionId) (g : Function) (hok : s.target.spliceable site = .ok (caller, g))
    (splices : s.target.Splices site s'.target caller callee g)

theorem starved_refuse (s : Inlining Module) (pass : String) (phase : Nat)
    (caller callee : FunctionId) :
    (s.refuse pass phase caller callee Refusal.exhausted.message).log.Starved callee := by
  refine ⟨_, Array.mem_push_self, rfl, rfl, ?_⟩
  simp only [String.toList_append, List.append_assoc]
  exact (List.suffix_append _ _).trans ((List.suffix_append _ _).trans
    ((List.suffix_append _ _).trans (List.suffix_append _ _)))

theorem attempt_cases (phase : Nat) (callee : FunctionId) (s : Inlining Module)
    (call : FunctionId × CallSiteId) :
    Attempts callee call.2 s (s.attempt phase callee call) := by
  unfold attempt
  simp only []
  split_ifs with hsite
  · rcases Module.inline_cases hsite with ⟨reason, hreason, hi⟩ | ⟨f, g, m, hok, hi, hs⟩
    · have hchange : s.change (inline · call.2) = (.refused reason.message, s) := by
        simp [Inlining.change, Run.change, hi]
      rw [hchange]
      refine .refused reason hsite hreason rfl rfl ?_
      rintro rfl
      exact starved_refuse s _ _ _ _
    · have hchange : s.change (inline · call.2) = (.done, { s with target := m }) := by
        simp [Inlining.change, Run.change, hi]
      rw [hchange]
      exact .done f g hok hs
  · exact .stale hsite rfl rfl

end Inlining

section Visits

/-- The order in which the functions of a module are visited. -/
abbrev Module.visitOrder (m : Module) : List FunctionId :=
  (Snapshot.ofSource m).drain.ready.toList

/-- There are too few handles left for the calls in the body of `f`, and a call of `f` was refused
for that. -/
def Module.Exhausted (m : Module) (log : EventLog) (f : FunctionId) : Prop :=
  m.hasRoomFor (Body.callCount (m.instrsOf f)) = false ∧ log.Starved f

/-- The calls of `f` cannot be inlined: its body must not be copied, or handles have run out. -/
def Module.Stuck (m : Module) (log : EventLog) (f : FunctionId) : Prop :=
  (∃ g, m.function? f = some g ∧ g.flags.noInline) ∨ m.Exhausted log f

/-- What has become of the module `m₀` when the functions `done` have been visited. -/
structure Visited (phase : Nat) (m₀ : Module) (done : List FunctionId) (m : Module)
    (log : EventLog) : Prop where
  wf : m.WellFormed
  header : ∀ f, m.header? f = m₀.header? f
  origin : ∀ {f c x}, .call x (.direct c) ∈ m.instrsOf f → m₀.hasBody c →
    .call x (.direct c) ∈ m₀.instrsOf f ∨ c ∈ done
  kept : ∀ {f c x}, .call x (.direct c) ∈ m₀.instrsOf f → c ∉ m₀.visitOrder →
    .call x (.direct c) ∈ m.instrsOf f
  stuck : ∀ {f c x}, .call x (.direct c) ∈ m.instrsOf f → c ∈ done →
    isMarked phase m₀ c = .ok true → m.Stuck log c

variable {phase : Nat} {m₀ m m' : Module} {log log' : EventLog} {pre post : List FunctionId}
  {y : FunctionId}

theorem Module.Stuck.mono {f : FunctionId} (h : m.Stuck log f) (hh : m'.header? f = m.header? f)
    (hbody : m'.instrsOf f = m.instrsOf f) (hnext : m.nextSite ≤ m'.nextSite)
    (hlog : log.Grows log') : m'.Stuck log' f := by
  rcases h with ⟨g, hg, hno⟩ | ⟨hroom, hs⟩
  · obtain ⟨g', hg', hgg'⟩ := Module.function?_of_header? hh.symm hg
    exact .inl ⟨g', hg', by rwa [← Function.flags_of_header hgg']⟩
  · refine .inr ⟨?_, hs.grows hlog⟩
    rw [hbody]
    simp only [Module.hasRoomFor, decide_eq_false_iff_not] at hroom ⊢
    omega

theorem visited_nil (h : m₀.WellFormed) : Visited phase m₀ [] m₀ log :=
  ⟨h, fun _ => rfl, fun hx _ => .inl hx, fun hx _ => hx, fun _ hc => nomatch hc⟩

theorem Visited.mono {done : List FunctionId} (h : Visited phase m₀ done m log)
    (hlog : log.Grows log') : Visited phase m₀ done m log' :=
  ⟨h.wf, h.header, h.origin, h.kept, fun hx hc hmarked =>
    (h.stuck hx hc hmarked).mono rfl rfl (Nat.le_refl _) hlog⟩

/-- A call of `f` is among `calls` or cannot be inlined. -/
def Module.CallsLeft (m : Module) (log : EventLog) (f : FunctionId)
    (calls : List (FunctionId × CallSiteId)) : Prop :=
  ∀ k x, .call x (.direct f) ∈ m.instrsOf k → (k, x) ∈ calls ∨ m.Stuck log f

/-- A function has been visited when none of its calls can be inlined, unless it is not of the
phase. -/
theorem Visited.snoc {done : List FunctionId} (h : Visited phase m₀ done m log)
    (hy : isMarked phase m₀ y = .ok true → m.CallsLeft log y []) :
    Visited phase m₀ (done ++ [y]) m log := by
  refine ⟨h.wf, h.header, fun hx hc => ?_, h.kept, fun {f c x} hx hc hmarked => ?_⟩
  · exact (h.origin hx hc).imp id (List.mem_append_left _)
  · rcases List.mem_append.1 hc with hc | hc
    · exact h.stuck hx hc hmarked
    · rw [List.mem_singleton.1 hc] at hx hmarked ⊢
      exact (hy hmarked f x hx).resolve_left List.not_mem_nil

section Visit

variable (horder : m₀.visitOrder = pre ++ y :: post)
include horder

theorem not_mem_of_visitOrder : y ∉ pre := by
  have hnodup := (Snapshot.progress_drain (Snapshot.records_ofSource m₀)).1.nodup
  rw [show (Snapshot.ofSource m₀).drain.ready.toList = _ from horder] at hnodup
  exact fun hy => (List.nodup_append'.1 hnodup).2.2 hy List.mem_cons_self

variable (h₀ : m₀.WellFormed)
include h₀

theorem hasBody_of_visitOrder : m₀.hasBody y :=
  h₀.hasBody_iff_drained.2 (.inl (by
    rw [show (Snapshot.ofSource m₀).drain.ready.toList = _ from horder]
    simp))

namespace Visited

variable (h : Visited phase m₀ pre m log)
include h

/-- At its visit a function calls only functions visited before. -/
theorem callee_done {c : FunctionId} {x : CallSiteId} (hx : .call x (.direct c) ∈ m.instrsOf y)
    (hc : m₀.hasBody c) : c ∈ pre :=
  (h.origin hx hc).elim (fun hx => h₀.callee_before horder hx hc) id

theorem not_mem_self {x : CallSiteId} : .call x (.direct y) ∉ m.instrsOf y := fun hx =>
  not_mem_of_visitOrder horder (h.callee_done horder h₀ hx (hasBody_of_visitOrder horder h₀))

/-- At its visit a function is called only from functions not visited before, and by calls that the
snapshot knows. -/
theorem caller_later {f : FunctionId} {x : CallSiteId}
    (hx : .call x (.direct y) ∈ m.instrsOf f) :
    (f, x) ∈ (Snapshot.ofSource m₀).callsTo y ∧ f ∉ pre ++ [y] := by
  have hbody := hasBody_of_visitOrder horder h₀
  have hx₀ := (h.origin hx hbody).resolve_right (not_mem_of_visitOrder horder)
  refine ⟨(Snapshot.mem_callsTo_ofModule h₀).2 ⟨hbody, hx₀⟩, fun hf => ?_⟩
  rcases List.mem_append.1 hf with hf | hf
  · obtain ⟨as, bs, rfl⟩ := List.append_of_mem hf
    have hsplit : m₀.visitOrder = as ++ f :: (bs ++ y :: post) := by simp [horder]
    exact not_mem_of_visitOrder horder
      (List.mem_append_left _ (h₀.callee_before hsplit hx₀ hbody))
  · rw [List.mem_singleton.1 hf] at hx
    exact h.not_mem_self horder h₀ hx

/-- Inlining a call of the function visited leaves the functions visited so far as they were. -/
theorem stuck_splice {site : CallSiteId} {f : FunctionId} {g : Function}
    (hs : m.Splices site m' f y g) (hlog : log.Grows log') {c : FunctionId}
    (hc : c ∈ pre ++ [y]) (hstuck : m.Stuck log c) : m'.Stuck log' c := by
  obtain ⟨as, bs, hbody, -, -⟩ := hs.body
  have hf := (h.caller_later horder h₀ (f := f) (x := site) (by simp [hbody])).2
  refine hstuck.mono (hs.header?_eq c) (hs.instrsOf_other ?_) ?_ hlog
  · rintro rfl
    exact hf hc
  · have := hs.nextSite
    omega

/-- A copied call stood in the body of `y`, which by now calls only what has been visited. -/
theorem splice {site : CallSiteId} {f : FunctionId} {g : Function}
    (hs : m.Splices site m' f y g) (hwf : m'.WellFormed)
    (hlog : log.Grows log') : Visited phase m₀ pre m' log' := by
  refine ⟨hwf, fun k => (hs.header?_eq k).trans (h.header k), fun {k c x} hx hc => ?_,
    fun {k c x} hx hc => ?_, fun {k c x} hx hc hmarked => ?_⟩
  · rcases hs.mem_call h.wf hx with ⟨hx, -⟩ | ⟨-, z, hz⟩
    · exact h.origin hx hc
    · exact .inr (h.callee_done horder h₀ hz hc)
  · have hy : c ≠ y := by
      rintro rfl
      exact hc (by simp [horder])
    exact hs.mem_call_of_ne hy (h.kept hx hc)
  · refine h.stuck_splice horder h₀ hs hlog (List.mem_append_left _ hc) ?_
    rcases hs.mem_call h.wf hx with ⟨hx, -⟩ | ⟨-, z, hz⟩
    · exact h.stuck hx hc hmarked
    · exact h.stuck hz hc hmarked

/-- A call of the function visited that is refused cannot be inlined later either. -/
theorem stuck_of_refused {site : CallSiteId} {reason : Refusal}
    (hsite : m.currentCallee? site = some y) (hreason : m.spliceable site = .error reason)
    (hlog : reason = .exhausted → log'.Starved y) : m.Stuck log' y := by
  obtain ⟨f, hcall⟩ := Module.currentCallee?_eq_some.1 hsite
  have hne : y ≠ f := by
    rintro rfl
    exact h.not_mem_self horder h₀ (h.wf.callAt?_iff.1 hcall)
  have hbody : m.hasBody y :=
    Module.hasBody_of_header? (h.header y) ▸ hasBody_of_visitOrder horder h₀
  obtain ⟨g, hg⟩ := Module.contains_iff.1 (Module.contains_of_hasBody hbody)
  have hgbody : g.hasBody := by simpa [Module.hasBody, hg] using hbody
  rcases hno : g.flags.noInline with _ | _
  · obtain ⟨rfl, hroom⟩ := Module.exhausted_of_refused hcall hne hg hgbody hno hreason
    exact .inr ⟨by rwa [Module.instrsOf_of_function? hg], hlog rfl⟩
  · exact .inl ⟨g, hg, hno⟩

end Visited

theorem visited_attempt (s : Inlining Module) (call : FunctionId × CallSiteId)
    {calls : List (FunctionId × CallSiteId)} (h : Visited phase m₀ pre s.target s.log)
    (hleft : s.target.CallsLeft s.log y (call :: calls)) :
    let s' := s.attempt phase y call
    Visited phase m₀ pre s'.target s'.log ∧ s'.target.CallsLeft s'.log y calls := by
  have hlog := Inlining.grows_attempt phase y s call
  have hwf : (s.attempt phase y call).target.WellFormed :=
    Inlining.attempt_keeps (fun t x ht => t.target_inline x ▸ ht.splice x) y s call h.wf
  simp only []
  cases Inlining.attempt_cases phase y s call with
  | stale hsite target _ =>
    rw [target]
    refine ⟨h.mono hlog, fun k x hx => ?_⟩
    rcases hleft k x hx with hmem | hstuck
    · refine .inl ((List.mem_cons.1 hmem).resolve_left ?_)
      rintro rfl
      exact hsite (h.wf.currentCallee?_iff.2 ⟨k, hx⟩)
    · exact .inr (hstuck.mono rfl rfl (Nat.le_refl _) hlog)
  | refused reason hsite hreason target _ starved =>
    rw [target]
    exact ⟨h.mono hlog, fun _ _ _ =>
      .inr (h.stuck_of_refused horder h₀ hsite hreason starved)⟩
  | done f g _ hs =>
    refine ⟨h.splice horder h₀ hs hwf hlog, fun k x hx => ?_⟩
    rcases hs.mem_call h.wf hx with ⟨hx, hne⟩ | ⟨-, z, hz⟩
    · rcases hleft k x hx with hmem | hstuck
      · refine .inl ((List.mem_cons.1 hmem).resolve_left ?_)
        rintro rfl
        exact hne rfl
      · exact .inr (h.stuck_splice horder h₀ hs hlog (by simp) hstuck)
    · exact absurd hz (h.not_mem_self horder h₀)

/-- Attempts on all calls of a function leave none that can be inlined. -/
theorem visited_foldl_attempt : ∀ (calls : List (FunctionId × CallSiteId)) (s : Inlining Module),
    Visited phase m₀ pre s.target s.log → s.target.CallsLeft s.log y calls →
    let s' := calls.foldl (Inlining.attempt phase y) s
    Visited phase m₀ pre s'.target s'.log ∧ s'.target.CallsLeft s'.log y []
  | [], _, h, hleft => ⟨h, hleft⟩
  | call :: calls, s, h, hleft => by
    obtain ⟨h', hleft'⟩ := visited_attempt horder h₀ s call h hleft
    exact visited_foldl_attempt calls _ h' hleft'

theorem visited_visit {s s' : Inlining Module} (h : Visited phase m₀ pre s.target s.log)
    (hvisit : s.visit phase (Snapshot.ofSource m₀) y = .ok s') :
    Visited phase m₀ (pre ++ [y]) s'.target s'.log := by
  have hmarked : isMarked phase s.target y = isMarked phase m₀ y :=
    Module.isMarked_of_header? (h.header y) phase
  rw [Inlining.visit, hmarked] at hvisit
  rcases hm : isMarked phase m₀ y with fault | marked
  · simp [hm, Run.check, Except.map] at hvisit
  simp only [hm, Run.check, Except.map, Except.ok.injEq] at hvisit
  cases marked with
  | false =>
    obtain rfl : s = s' := by simpa using hvisit
    refine h.snoc fun hmarked => ?_
    rw [hm] at hmarked
    cases hmarked
  | true =>
    have hleft : s.target.CallsLeft s.log y ((Snapshot.ofSource m₀).callsTo y) :=
      fun k x hx => .inl (h.caller_later horder h₀ hx).1
    obtain ⟨h', hleft'⟩ := visited_foldl_attempt horder h₀ _ s h hleft
    rw [if_pos rfl] at hvisit
    rw [hvisit] at h' hleft'
    exact h'.snoc fun _ => hleft'

end Visit

/-- Visiting the functions of a snapshot one after another visits them all. -/
theorem visited_foldlM (h₀ : m₀.WellFormed) {s s' : Inlining Module} (hs : s.target = m₀)
    (hfold : m₀.visitOrder.foldlM (Inlining.visit phase (Snapshot.ofSource m₀)) s = .ok s') :
    Visited phase m₀ m₀.visitOrder s'.target s'.log := by
  refine foldlM_keeps (I := fun done s => Visited phase m₀ done s.target s.log)
    (fun horder h hvisit => visited_visit horder h₀ h hvisit) ?_ hfold
  rw [hs]
  exact visited_nil h₀

end Visits

end PhasedInlining
