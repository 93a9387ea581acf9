import PhasedInlining.Proofs.CallGraph.Exactness
import PhasedInlining.Proofs.Lowering.Agreement
import PhasedInlining.Proofs.Lowering.Ledger
import PhasedInlining.Proofs.Lowering.Stages
import PhasedInlining.Proofs.Splicing

/-!
# Every call has one turn

Lowering callees first attends to the calls that its snapshot recorded, and these are the calls of
the module at the start. Only a call that is replaced goes away, and it goes away at its turn, so no
recorded call is ever found stale. At its turn a call is inlined, unless its callee must not be
copied or handles have run out (`TakesTurns`). So the events of a run tell which calls were
inlined and which refused, and both can be read off the module before the run
(`Module.WellFormed.perm_turns`).
-/

namespace PhasedInlining

open CallSource Target

/-- The caller and the callee that an event tells of. -/
def Event.ends (e : Event) : Option FunctionId × Option FunctionId := (e.caller?, e.function?)

/-- The caller and the callee of a call. -/
def CallEdge.ends (e : CallEdge) : Option FunctionId × Option FunctionId :=
  (some e.caller, e.target.callee?)

/-- A recorded call of `y`. -/
def CallEdge.recorded (y : FunctionId) (call : FunctionId × CallSiteId) : CallEdge :=
  ⟨call.1, .direct y, call.2⟩

/-- The kinds of events that tell of an attempt to inline a call. -/
def EventKind.attempts : List EventKind := [functionInlined, inlineFailed, staleCallSite]

section Attempt

variable {σ : Type} [Target σ]

/-- The kind of event that an attempt to inline a recorded call of `callee` records. -/
def verdictOn (t : σ) (callee : FunctionId) (site : CallSiteId) : EventKind :=
  if currentCallee? t site = some callee then
    if (inline t site).1 = .done then .functionInlined else .inlineFailed
  else .staleCallSite

theorem Inlining.log_attempt (phase : Nat) (s : Inlining σ) (callee : FunctionId)
    (call : FunctionId × CallSiteId) : ∃ e : Event,
      (s.attempt phase callee call).log = s.log.record e
        ∧ e.kind = verdictOn s.target callee call.2 ∧ e.ends = (some call.1, some callee) := by
  have hchange : s.change (inline · call.2)
      = ((inline s.target call.2).1, { s with target := (inline s.target call.2).2 }) := rfl
  unfold attempt verdictOn
  simp only [hchange]
  split_ifs with hsite hdone
  · rw [hdone]
    exact ⟨_, rfl, rfl, rfl⟩
  · rcases hanswer : (inline s.target call.2).1 with _ | reason
    · exact absurd hanswer hdone
    · exact ⟨_, rfl, rfl, rfl⟩
  · exact ⟨_, rfl, rfl, rfl⟩

end Attempt

namespace Module

variable {m : Module} {e : CallEdge}

/-- The callee must not be copied. -/
def forbids (m : Module) (e : CallEdge) : Bool :=
  (e.target.callee?.bind m.function?).any (·.flags.noInline)

/-- The call goes to a function of the phase that has a body and from which no call cycle can be
reached. -/
def Due (phase : Nat) (m : Module) (e : CallEdge) : Prop :=
  ∃ c, e.target = .direct c ∧ m.hasBody c ∧ isMarked phase m c = .ok true
    ∧ ¬ ReachesCycle m.Calls c

open scoped Classical in
/-- The calls that are due, in the order in which the module lists its calls. -/
noncomputable def dueCalls (phase : Nat) (m : Module) : List CallEdge :=
  m.callEdges.filter (m.Due phase ·)

/-- The kind of event that tells of a call that had its turn. -/
def verdict (m : Module) (e : CallEdge) : EventKind :=
  if m.forbids e then .inlineFailed else .functionInlined

theorem verdict_eq_functionInlined (m : Module) (e : CallEdge) :
    decide (m.verdict e = .functionInlined) = !m.forbids e := by
  unfold verdict
  cases m.forbids e <;> rfl

theorem verdict_eq_inlineFailed (m : Module) (e : CallEdge) :
    decide (m.verdict e = .inlineFailed) = m.forbids e := by
  unfold verdict
  cases m.forbids e <;> rfl

theorem verdict_ne_staleCallSite (m : Module) (e : CallEdge) : m.verdict e ≠ .staleCallSite := by
  unfold verdict
  split_ifs <;> simp

/-- The calls of a function as a snapshot of the module lists them. -/
def edgesTo (m : Module) (y : FunctionId) : List CallEdge :=
  ((Snapshot.ofSource m).callsTo y).map (.recorded y)

/-- The calls that have had their turns when `done` have been visited. -/
def turns (phase : Nat) (m : Module) (done : List FunctionId) : List CallEdge :=
  done.flatMap fun y => if (isMarked phase m y).toOption = some true then m.edgesTo y else []

theorem WellFormed.mem_edgesTo (h : m.WellFormed) {y : FunctionId} :
    e ∈ m.edgesTo y ↔ e.target = .direct y ∧ m.hasBody y ∧ e ∈ m.callEdges := by
  obtain ⟨f, t, x⟩ := e
  have hmem := h.mem_callEdges (f := f) (t := .direct y) (x := x)
  simp only [edgesTo, CallEdge.recorded, List.mem_map, CallEdge.mk.injEq, Prod.exists,
    Snapshot.mem_callsTo_ofModule h]
  constructor
  · rintro ⟨f, x, ⟨hbody, hx⟩, rfl, rfl, rfl⟩
    exact ⟨rfl, hbody, hmem.2 hx⟩
  · rintro ⟨rfl, hbody, he⟩
    exact ⟨f, x, ⟨hbody, hmem.1 he⟩, rfl, rfl, rfl⟩

theorem WellFormed.edgesTo_nodup (h : m.WellFormed) (y : FunctionId) : (m.edgesTo y).Nodup := by
  refine (Snapshot.callsTo_nodup h y).map ?_
  rintro ⟨f, x⟩ ⟨f', x'⟩ heq
  cases heq
  rfl

theorem WellFormed.mem_turns (h : m.WellFormed) {phase : Nat} {done : List FunctionId} :
    e ∈ m.turns phase done ↔ e ∈ m.callEdges ∧ ∃ y ∈ done, e.target = .direct y ∧ m.hasBody y
      ∧ isMarked phase m y = .ok true := by
  simp only [turns, List.mem_flatMap, List.mem_ite_nil_right, toOption_eq_some, h.mem_edgesTo]
  constructor
  · rintro ⟨y, hy, hmarked, ht, hbody, he⟩
    exact ⟨he, y, hy, ht, hbody, hmarked⟩
  · rintro ⟨he, y, hy, ht, hbody, hmarked⟩
    exact ⟨y, hy, hmarked, ht, hbody, he⟩

theorem WellFormed.turns_nodup (h : m.WellFormed) (phase : Nat) {done : List FunctionId}
    (hdone : done.Nodup) : (m.turns phase done).Nodup := by
  refine List.nodup_flatMap.2 ⟨fun y _ => ?_, hdone.imp fun {y z} hyz e hy hz => ?_⟩
  · split_ifs
    · exact h.edgesTo_nodup y
    · exact List.nodup_nil
  · rw [List.mem_ite_nil_right, h.mem_edgesTo] at hy hz
    exact hyz (CallTarget.direct.inj (hy.2.1.symm.trans hz.2.1))

/-- What is handed out are the functions with bodies from which no call cycle can be reached. -/
theorem WellFormed.mem_visitOrder (h : m.WellFormed) {f : FunctionId} :
    f ∈ m.visitOrder ↔ m.hasBody f ∧ ¬ ReachesCycle m.Calls f := by
  constructor
  · intro hf
    have hbody := h.hasBody_iff_drained.2 (.inl hf)
    refine ⟨hbody, fun hreaches => ?_⟩
    exact Snapshot.not_mem_ready_of_unresolved (Snapshot.records_ofSource m)
      (h.mem_unresolved.2 ⟨hbody, hreaches⟩) hf
  · rintro ⟨hbody, hno⟩
    exact (h.hasBody_iff_drained.1 hbody).resolve_right fun hu => hno (h.mem_unresolved.1 hu).2

open scoped Classical in
/-- By the end all calls that are due have had a turn, and no other call. -/
theorem WellFormed.perm_turns (h : m.WellFormed) (phase : Nat) :
    (m.turns phase m.visitOrder).Perm (m.dueCalls phase) := by
  have hnodup : m.callEdges.Nodup := h.sites_callEdges_nodup.of_map _
  refine (List.perm_ext_iff_of_nodup (h.turns_nodup phase ?_) (hnodup.filter _)).2 fun e => ?_
  · exact (Snapshot.progress_drain (Snapshot.records_ofSource m)).1.nodup
  · rw [h.mem_turns, List.mem_filter, decide_eq_true_eq, Due]
    refine and_congr_right fun _ => exists_congr fun y => ?_
    rw [h.mem_visitOrder]
    tauto

end Module

/-- The attempts in the log are those on the calls `passed`, in order, with what came of them. -/
def EventLog.Attempted (log : EventLog) (m₀ : Module) (passed : List CallEdge) : Prop :=
  ∀ k ∈ EventKind.attempts,
    (log.ofKind k).map Event.ends = (passed.filter (m₀.verdict · = k)).map CallEdge.ends

theorem EventLog.Attempted.empty (m₀ : Module) : ({} : EventLog).Attempted m₀ [] := fun _ _ => rfl

theorem EventLog.Attempted.adds {log log' : EventLog} {m₀ : Module} {passed : List CallEdge}
    (h : log.Attempted m₀ passed) {k : EventKind} (hadds : log.Adds k log')
    (hk : k ∉ EventKind.attempts) : log'.Attempted m₀ passed := by
  intro k' hk'
  rw [hadds.ofKind_eq (ne_of_mem_of_not_mem hk' hk), h k' hk']

theorem EventLog.Attempted.record {log : EventLog} {m₀ : Module} {passed : List CallEdge}
    (h : log.Attempted m₀ passed) {e : Event} {c : CallEdge} (hkind : e.kind = m₀.verdict c)
    (hends : e.ends = c.ends) : (log.record e).Attempted m₀ (passed ++ [c]) := by
  intro k hk
  rw [ofKind_record, List.map_append, h k hk, List.filter_append, List.map_append, hkind]
  by_cases hverdict : m₀.verdict c = k
  · simp [hverdict, hends]
  · simp [hverdict]

/-- The calls `passed` of `m₀` have had their turns, and `m` and `log` are what came of it: each was
inlined, unless its callee must not be copied. -/
structure TakesTurns (m₀ : Module) (passed : List CallEdge) (m : Module) (log : EventLog) :
    Prop where
  attempted : log.Attempted m₀ passed
  kept : ∀ e ∈ m₀.callEdges, (e ∈ passed → m₀.forbids e) →
    .call e.site e.target ∈ m.instrsOf e.caller

section Turns

variable {phase : Nat} {m₀ : Module} {passed : List CallEdge} {pre post : List FunctionId}
  {y : FunctionId}

theorem Visited.forbids_eq {m : Module} {log : EventLog} (h : Visited phase m₀ pre m log)
    {g : Function} (hg : m.function? y = some g) (f : FunctionId) (x : CallSiteId) :
    m₀.forbids ⟨f, .direct y, x⟩ = g.flags.noInline := by
  obtain ⟨g₀, hg₀, hheader⟩ := Module.function?_of_header? (h.header y) hg
  simp [Module.forbids, CallTarget.callee?, hg₀, Function.flags_of_header hheader]

section Visit

variable (horder : m₀.visitOrder = pre ++ y :: post) (h₀ : m₀.WellFormed)
include horder h₀

/-- At its turn a call stands where it stood, and what comes of it only the callee decides. -/
theorem TakesTurns.attempt {s : Inlining Module} (h : TakesTurns m₀ passed s.target s.log)
    (hv : Visited phase m₀ pre s.target s.log) {call : FunctionId × CallSiteId}
    (hcall : CallEdge.recorded y call ∈ m₀.callEdges)
    (hnew : CallEdge.recorded y call ∉ passed)
    (hroom : ¬ (s.attempt phase y call).log.Starved y) :
    TakesTurns m₀ (passed ++ [.recorded y call]) (s.attempt phase y call).target
      (s.attempt phase y call).log := by
  have hx := h.kept _ hcall fun hpassed => absurd hpassed hnew
  have hsite : s.target.currentCallee? call.2 = some y := hv.wf.currentCallee?_iff.2 ⟨_, hx⟩
  obtain ⟨e, hlog, hkind, hends⟩ := s.log_attempt phase y call
  rw [verdictOn, if_pos (show currentCallee? s.target call.2 = some y from hsite)] at hkind
  cases Inlining.attempt_cases phase y s call with
  | stale hstale => exact absurd hsite hstale
  | refused reason _ hreason target _ starved =>
    obtain ⟨g, hg, hno⟩ :=
      (hv.stuck_of_refused horder h₀ hsite hreason starved).resolve_right fun hspent =>
        hroom hspent.2
    have hforbids := (hv.forbids_eq hg call.1 call.2).trans hno
    rw [if_neg fun hdone => ?_] at hkind
    · refine ⟨hlog ▸ h.attempted.record ?_ hends, fun e' he' hleft => ?_⟩
      · rw [hkind, Module.verdict, CallEdge.recorded, if_pos hforbids]
      rw [target]
      exact h.kept e' he' fun hpassed => hleft (List.mem_append_left _ hpassed)
    · obtain ⟨_, _, hok⟩ := Module.inline_done.1 hdone
      exact nomatch hreason.symm.trans hok
  | done f g hok hs =>
    have hforbids := (hv.forbids_eq hs.callee_eq call.1 call.2).trans hs.noInline
    rw [if_pos (Module.inline_done.2 ⟨f, g, hok⟩)] at hkind
    refine ⟨hlog ▸ h.attempted.record ?_ hends, fun e' he' hleft => ?_⟩
    · rw [hkind, Module.verdict, CallEdge.recorded, hforbids]
      rfl
    have hx' := h.kept e' he' fun hpassed => hleft (List.mem_append_left _ hpassed)
    refine hs.mem_of_ne (fun heq => ?_) hx'
    rw [heq] at hx'
    obtain ⟨f', t', x'⟩ := e'
    cases heq
    have hcaller := (hv.wf.callAt?_iff.2 hx').symm.trans (hv.wf.callAt?_iff.2 hx)
    cases hcaller
    exact nomatch (hleft (List.mem_append_right _ (List.mem_singleton.2 rfl))).symm.trans hforbids

/-- Attempts on the calls of a function give a turn to each of them. -/
theorem TakesTurns.foldl_attempt : ∀ (calls : List (FunctionId × CallSiteId))
    {passed : List CallEdge} {s : Inlining Module}, Visited phase m₀ pre s.target s.log →
    s.target.CallsLeft s.log y calls →
    (∀ call ∈ calls, CallEdge.recorded y call ∈ m₀.callEdges) →
    (passed ++ calls.map (CallEdge.recorded y)).Nodup →
    ((∀ f, ¬ s.log.Starved f) → TakesTurns m₀ passed s.target s.log) →
    let s' := calls.foldl (Inlining.attempt phase y) s
    (∀ f, ¬ s'.log.Starved f) →
      TakesTurns m₀ (passed ++ calls.map (CallEdge.recorded y)) s'.target s'.log
  | [], _, _, _, _, _, _, h, hroom => by simpa using h hroom
  | call :: calls, passed, s, hv, hleft, hcalls, hnodup, h, hroom => by
    obtain ⟨hv', hleft'⟩ := visited_attempt horder h₀ s call hv hleft
    rw [List.map_cons, List.append_cons] at hnodup ⊢
    refine foldl_attempt calls hv' hleft' (fun c hc => hcalls c (List.mem_cons_of_mem _ hc)) hnodup
      (fun hroom' => ?_) hroom
    refine (h fun f hf => ?_).attempt horder h₀ hv (hcalls call List.mem_cons_self) ?_ (hroom' y)
    · exact hroom' f (hf.grows (s.grows_attempt phase y call))
    · have hdisjoint := (List.nodup_append'.1 (List.nodup_append'.1 hnodup).1).2.2
      exact fun hpassed => hdisjoint hpassed List.mem_cons_self

theorem TakesTurns.visit {s s' : Inlining Module} (hv : Visited phase m₀ pre s.target s.log)
    (h : (∀ f, ¬ s.log.Starved f) → TakesTurns m₀ (m₀.turns phase pre) s.target s.log)
    (hvisit : s.visit phase (Snapshot.ofSource m₀) y = .ok s') (hroom : ∀ f, ¬ s'.log.Starved f) :
    TakesTurns m₀ (m₀.turns phase (pre ++ [y])) s'.target s'.log := by
  have hsame : isMarked phase s.target y = isMarked phase m₀ y :=
    Module.isMarked_of_header? (hv.header y) phase
  have hnodup : (m₀.turns phase (pre ++ [y])).Nodup := by
    refine h₀.turns_nodup phase ?_
    have hall := (Snapshot.progress_drain (Snapshot.records_ofSource m₀)).1.nodup
    rw [show (Snapshot.ofSource m₀).drain.ready.toList = _ from horder, List.append_cons] at hall
    exact (List.nodup_append'.1 hall).1
  have hturns : m₀.turns phase (pre ++ [y]) = m₀.turns phase pre
      ++ if (isMarked phase m₀ y).toOption = some true then m₀.edgesTo y else [] := by
    simp [Module.turns]
  obtain ⟨marked, hcheck, rfl⟩ := map_eq_ok.1 hvisit
  rw [Run.check_eq_ok, hsame] at hcheck
  rw [hturns, hcheck] at hnodup ⊢
  cases marked with
  | false => simpa [Except.toOption] using h hroom
  | true =>
    simp only [Except.toOption, if_true] at hnodup hroom ⊢
    refine foldl_attempt horder h₀ _ hv
      (fun k x hx => .inl (hv.caller_later horder h₀ hx).1) (fun call hcall => ?_) hnodup h hroom
    obtain ⟨-, hx⟩ := (Snapshot.mem_callsTo_ofModule h₀).1 hcall
    exact h₀.mem_callEdges.2 hx

end Visit

/-- All calls that are due have had their turns when all functions have been visited. -/
theorem takesTurns_foldlM (h₀ : m₀.WellFormed) {s s' : Inlining Module} (hs : s.target = m₀)
    (hlog : s.log.Attempted m₀ [])
    (hfold : m₀.visitOrder.foldlM (Inlining.visit phase (Snapshot.ofSource m₀)) s = .ok s')
    (hroom : ∀ f, ¬ s'.log.Starved f) :
    TakesTurns m₀ (m₀.turns phase m₀.visitOrder) s'.target s'.log := by
  refine (foldlM_keeps (I := fun done s => Visited phase m₀ done s.target s.log
    ∧ ((∀ f, ¬ s.log.Starved f) → TakesTurns m₀ (m₀.turns phase done) s.target s.log))
    (fun horder h hvisit => ⟨visited_visit horder h₀ h.1 hvisit,
      TakesTurns.visit horder h₀ h.1 h.2 hvisit⟩) ?_ hfold).2 hroom
  rw [hs]
  exact ⟨visited_nil h₀, fun _ => ⟨hlog, fun _ he _ => h₀.mem_callEdges.1 he⟩⟩

end Turns

section Lower

variable (o : Options)

theorem Options.adds_validate {r r' : Run Module} (h : o.validate r = .ok r') :
    r.log.Adds .invariantViolation r'.log := by
  refine foldlM_keeps (I := fun _ (r' : Run Module) => r.log.Adds .invariantViolation r'.log)
    (fun _ hr hv => ?_) (.refl _ _) h
  obtain ⟨marked, -, hrest⟩ := bind_eq_ok.1 hv
  simp only [] at hrest
  split_ifs at hrest
  · cases hrest
    exact hr
  · cases hrest
    exact hr.record rfl

theorem Options.inlineStage_takesTurns (ho : o.strategy = .bottomUp) {r r₁ : Run Module}
    {report : InlineReport} (hwf : r.target.WellFormed) (h : o.inlineStage r = .ok (r₁, report))
    (hroom : ∀ f, ¬ r₁.log.Starved f) :
    TakesTurns r.target (r.target.turns o.phase r.target.visitOrder) r₁.target r₁.log := by
  obtain ⟨r₀, hvalid, htarget, hinline⟩ := o.inlineStage_ok.1 h
  rw [Options.inlinePhase, ho] at hinline
  obtain ⟨s, hvisits, heq⟩ := map_eq_ok.1 hinline
  cases heq
  have hvalidated := (EventLog.Attempted.empty r.target).adds (o.adds_validate hvalid) (by decide)
  have hbegun : (o.begin r₀).1.log.Attempted r.target [] :=
    hvalidated.adds ((EventLog.Adds.refl .passStarted _).record rfl) (by decide)
  exact takesTurns_foldlM hwf (s := { (o.begin r₀).1 with }) htarget hbegun hvisits hroom

/-- When a run is over, its log tells of all turns, and of the calls left it has swept some. -/
theorem lower_takesTurns (ho : o.strategy = .bottomUp) {r r' : Run Module} {out : Outcome}
    (hwf : r.target.WellFormed) (h : lower o r = .ok (r', out))
    (hroom : ∀ f, ¬ out.log.Starved f) :
    ∃ m, Stages o r.target m r'.target
      ∧ TakesTurns r.target (r.target.turns o.phase r.target.visitOrder) m out.log := by
  obtain ⟨r₁, report, r₂, removed, hinlined, hsweep, hcomplete⟩ := (lower_stages o).1 h
  have hdiagnosed := o.adds_diagnose (Snapshot.ofSource r.target) report r₁
  have hswept := o.adds_sweepPhase hsweep
  have hstages := stages_of_lower hwf hinlined hsweep
  cases hcomplete
  have hturns := o.inlineStage_takesTurns ho hwf hinlined fun f hf =>
    hroom f (hf.grows (hdiagnosed.grows.trans (hswept.grows.trans (EventLog.grows_record _ _))))
  refine ⟨r₁.target, hstages, ?_, hturns.kept⟩
  exact ((hturns.attempted.adds hdiagnosed (by decide)).adds hswept (by decide)).adds
    ((EventLog.Adds.refl .passCompleted _).record rfl) (by decide)

end Lower

/-- A run that lowers callees first finds no call stale, and gives one turn to each call of a
function of the phase that reaches no call cycle: it inlines those whose callee may be copied, has
those refused whose callee must not be, and records both. All other calls stay where they are, as
long as handles do not run out. -/
theorem calls_take_turns {o : Options} (ho : o.strategy = .bottomUp) {r r' : Run Module}
    {out : Outcome} (hwf : r.target.WellFormed) (h : lower o r = .ok (r', out))
    (hroom : ∀ f, ¬ out.log.Starved f) :
    let due := r.target.dueCalls o.phase
    out.log.count .staleCallSite = 0
    ∧ out.inlined = due.countP (!r.target.forbids ·)
    ∧ out.failed = due.countP r.target.forbids
    ∧ ((out.log.ofKind .functionInlined).map Event.ends).Perm
      ((due.filter (!r.target.forbids ·)).map CallEdge.ends)
    ∧ ((out.log.ofKind .inlineFailed).map Event.ends).Perm
      ((due.filter r.target.forbids).map CallEdge.ends)
    ∧ ∀ e ∈ r.target.callEdges, (e ∈ due → r.target.forbids e) → r'.target.contains e.caller →
      r'.target.callAt? e.site = some (e.caller, e.target) := by
  have hagrees := lower_agrees o h
  obtain ⟨m, hstages, hattempted, hkept⟩ := lower_takesTurns o ho hwf h hroom
  have hperm := hwf.perm_turns o.phase
  have hinlines := hattempted .functionInlined (by decide)
  have hrefuses := hattempted .inlineFailed (by decide)
  have hstale := hattempted .staleCallSite (by decide)
  simp only [Module.verdict_eq_functionInlined] at hinlines
  simp only [Module.verdict_eq_inlineFailed] at hrefuses
  simp only [Module.verdict_ne_staleCallSite, decide_false, List.filter_false,
    List.map_nil] at hstale
  refine ⟨?_, ?_, ?_, ?_, ?_, fun e he hleft hlive => ?_⟩
  · rw [← EventLog.length_ofKind, ← List.length_map Event.ends, hstale, List.length_nil]
  · rw [hagrees.inlined, ← EventLog.length_ofKind, ← List.length_map Event.ends, hinlines,
      List.length_map, ← List.countP_eq_length_filter, hperm.countP_eq]
  · rw [hagrees.failed, ← EventLog.length_ofKind, ← List.length_map Event.ends, hrefuses,
      List.length_map, ← List.countP_eq_length_filter, hperm.countP_eq]
  · rw [hinlines]
    exact (hperm.filter _).map _
  · rw [hrefuses]
    exact (hperm.filter _).map _
  · have hx := hkept e he fun hpassed => hleft (hperm.mem_iff.1 hpassed)
    exact hstages.prunes.wf.callAt?_iff.2 (hstages.mem_instrsOf.2 ⟨hx, hlive⟩)

/-- Of six calls five are inlined. That of the stub is refused, and stays. -/
theorem calls_take_turns_layered : ∃ r' out,
    lower { phase := 1, sweeps := false } { target := Module.layered } = .ok (r', out)
      ∧ out.log.count .staleCallSite = 0
      ∧ (Module.layered.dueCalls 1).countP (!Module.layered.forbids ·) = 5
      ∧ (Module.layered.dueCalls 1).countP Module.layered.forbids = 1
      ∧ ((out.log.ofKind .inlineFailed).map Event.ends).Perm
        (((Module.layered.dueCalls 1).filter Module.layered.forbids).map CallEdge.ends)
      ∧ r'.target.callAt? ⟨3⟩ = some (⟨2⟩, .direct ⟨1⟩) := by
  have hrun : (lower { phase := 1, sweeps := false } { target := Module.layered }).toOption.any
      (fun e => e.2.inlined = 5 ∧ e.2.failed = 1 ∧ e.2.log.HasRoom ∧ e.1.target.contains ⟨2⟩)
        = true := by
    decide +kernel
  obtain ⟨⟨r', out⟩, h, hcheck⟩ := exists_ok_of_any hrun
  obtain ⟨hinlined, hfailed, hroom, hlive⟩ := of_decide_eq_true hcheck
  obtain ⟨hstale, hinlines, hrefuses, -, hperm, hkept⟩ :=
    calls_take_turns (r := { target := Module.layered }) rfl Module.layered_wellFormed h
      hroom.not_starved
  refine ⟨r', out, h, hstale, hinlines.symm.trans hinlined, hrefuses.symm.trans hfailed, hperm, ?_⟩
  exact hkept ⟨⟨2⟩, .direct ⟨1⟩, ⟨3⟩⟩ (by decide +kernel) (fun _ => by decide +kernel) hlive

end PhasedInlining
