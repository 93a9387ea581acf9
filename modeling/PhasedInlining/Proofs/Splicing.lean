import PhasedInlining.Proofs.Lowering.BottomUp

/-!
# What a splice does

A call is replaced if it can be (`CallsInlinable`) and handles are left for the calls in the copy.
If so, the copy stands where the call stood, in full but for its returns and under handles that were
never issued, and everything else is as it was, down to the handles of all other calls (`Inlines`).
If not, nothing has happened.
-/

namespace PhasedInlining

open CallSource Target

namespace Module

/-- The handle leads to a direct call in `caller` of another function, which is `g` and has a body
that may be copied. -/
structure CallsInlinable (m : Module) (s : CallSiteId) (caller callee : FunctionId) (g : Function) :
    Prop where
  call : m.callAt? s = some (caller, .direct callee)
  ne : callee ≠ caller
  callee_eq : m.function? callee = some g
  hasBody : g.hasBody
  noInline : g.flags.noInline = false

/-- `copy` is what a splice in `m` puts in place of a call of `g`. -/
structure IsCopy (m : Module) (g : Function) (copy : Body) : Prop where
  draft_eq : Body.draft copy = Body.draft (Body.withoutReturns g.instrs)
  nodup : (Body.sites copy).Nodup
  fresh : ∀ x ∈ Body.sites copy, m.nextSite ≤ x.value ∧ x.value < maxNumber

/-- `m'` is `m` with the call `s` of `caller` replaced by `copy`, and with no other change. -/
structure Inlines (m : Module) (s : CallSiteId) (m' : Module) (caller callee : FunctionId)
    (copy : Body) : Prop where
  body : ∃ h pre post, m.function? caller = some h
    ∧ h.instrs = pre ++ .call s (.direct callee) :: post
    ∧ m'.function? caller = some { h with body := some (pre ++ copy ++ post) }
  site_gone : m'.callAt? s = none
  site_kept : ∀ x, x ≠ s → ∀ c, m.callAt? x = some c → m'.callAt? x = some c
  site_new : ∀ x t, .call x t ∈ copy → m'.callAt? x = some (caller, t)
  other : ∀ f, f ≠ caller → m'.function? f = m.function? f
  name_eq : m'.name = m.name
  byName_eq : m'.byName = m.byName
  size_eq : m'.slots.size = m.slots.size

variable {m : Module} {s : CallSiteId}

theorem inline_done : (inline m s).1 = .done ↔ ∃ caller g, m.spliceable s = .ok (caller, g) := by
  simp only [Target.inline, splice]
  rcases m.spliceable s with r | ⟨caller, g⟩ <;> simp

theorem inline_refused (h : (inline m s).1 ≠ .done) : (inline m s).2 = m := by
  rcases m.splice_cases s with ⟨r, -, hs⟩ | ⟨caller, callee, g, hok, -⟩
  · rw [target_inline, hs]
  · exact absurd (inline_done.2 ⟨caller, g, hok⟩) h

theorem isCopy_issue {g : Function} (hroom : m.hasRoomFor (Body.callCount g.instrs)) :
    m.IsCopy g (Body.issue m.nextSite (Body.withoutReturns g.instrs)) := by
  refine ⟨Body.draft_issue _ _, ?_, fun x hx => ?_⟩
  · rw [Body.sites_issue]
    exact Body.range'_map_nodup _ _
  · rw [Body.sites_issue, Body.mem_range'_map, Body.callCount_withoutReturns] at hx
    have hle : m.nextSite + Body.callCount g.instrs ≤ maxNumber := of_decide_eq_true hroom
    omega

theorem inlines_inline (hwf : m.WellFormed) {caller callee : FunctionId} {g : Function}
    (h : m.CallsInlinable s caller callee g) (hroom : m.hasRoomFor (Body.callCount g.instrs)) :
    m.Inlines s (inline m s).2 caller callee
      (Body.issue m.nextSite (Body.withoutReturns g.instrs)) := by
  have hok : m.spliceable s = .ok (caller, g) :=
    spliceable_ok.2 ⟨callee, h.call, h.ne, h.callee_eq, h.hasBody, h.noInline, hroom⟩
  rw [target_inline]
  have hwf' := hwf.splice s
  rcases m.splice_cases s with ⟨r, hr, -⟩ | ⟨caller', callee', g', hok', hcall', -, hs⟩
  · exact nomatch hr.symm.trans hok
  cases hok'.symm.trans hok
  cases hcall'.symm.trans h.call
  obtain ⟨pre, post, hbody, hpre, hbody'⟩ := hs.body
  obtain ⟨k, hk, hk'⟩ := hs.caller_eq
  refine ⟨⟨k, pre, post, hk, ?_, ?_⟩, ?_, fun x hx c hc => ?_, fun x t hx => ?_, hs.other, ?_, ?_,
    ?_⟩
  · rwa [instrsOf_of_function? hk] at hbody
  · rw [hk', hbody']
  · have howner : (m.splice s).2.owners[s]? = none := by rw [owners_splice hok, if_pos rfl]
    simp [callAt?, howner]
  · obtain ⟨f, t⟩ := c
    rw [hwf'.callAt?_iff]
    rw [hwf.callAt?_iff] at hc
    exact hs.mem_of_ne (by simp [hx]) hc
  · rw [hwf'.callAt?_iff, hbody']
    simp [hx]
  all_goals simp [splice, hok, spliceBody, setBody, issueSites]

/-- A call is replaced exactly if the handle leads to a direct call of another function, with a body
that may be copied and for whose calls handles are left. Then this is all that happens; otherwise
nothing does. -/
theorem inline_exact (hwf : m.WellFormed) (s : CallSiteId) :
    ((inline m s).1 = .done ↔ ∃ caller callee g, m.CallsInlinable s caller callee g
      ∧ m.hasRoomFor (Body.callCount g.instrs))
    ∧ ((inline m s).1 ≠ .done → (inline m s).2 = m)
    ∧ ∀ caller callee g, m.CallsInlinable s caller callee g →
      m.hasRoomFor (Body.callCount g.instrs) → ∃ copy, m.IsCopy g copy
        ∧ m.Inlines s (inline m s).2 caller callee copy := by
  refine ⟨?_, inline_refused, fun caller callee g h hroom =>
    ⟨_, isCopy_issue hroom, inlines_inline hwf h hroom⟩⟩
  rw [inline_done]
  constructor
  · rintro ⟨caller, g, hok⟩
    obtain ⟨callee, hcall, hne, hg, hbody, hno, hroom⟩ := spliceable_ok.1 hok
    exact ⟨caller, callee, g, ⟨hcall, hne, hg, hbody, hno⟩, hroom⟩
  · rintro ⟨caller, callee, g, h, hroom⟩
    exact ⟨caller, g,
      spliceable_ok.2 ⟨callee, h.call, h.ne, h.callee_eq, h.hasBody, h.noInline, hroom⟩⟩

/-- `pair` returns early and calls a declaration and a pointer, and `main` calls it twice. -/
def twofold : Module :=
  (build "twofold" [
    ({ name := "pair" }, some [.op "a", .call () (.direct ⟨2⟩), .ret, .call () .indirect, .ret]),
    ({ name := "main" }, some [.call () (.direct ⟨0⟩), .op "b", .call () (.direct ⟨0⟩), .ret]),
    ({ name := "extern" }, none)]).2

theorem twofold_wellFormed : twofold.WellFormed := .build _ _

/-- The second call of `pair` is replaced, the call of a pointer is not. -/
theorem inline_exact_twofold :
    (inline twofold ⟨1⟩).1 = .refused "indirect call" ∧ (inline twofold ⟨1⟩).2 = twofold
      ∧ (inline twofold ⟨3⟩).1 = .done ∧ ∃ g copy, twofold.IsCopy g copy ∧ copy.length = 3
        ∧ twofold.Inlines ⟨3⟩ (inline twofold ⟨3⟩).2 ⟨1⟩ ⟨0⟩ copy := by
  have hrefused : (inline twofold ⟨1⟩).1 = .refused "indirect call" := by decide +kernel
  have hdone : (inline twofold ⟨3⟩).1 = .done := by decide +kernel
  obtain ⟨-, hkept, -⟩ := inline_exact twofold_wellFormed ⟨1⟩
  obtain ⟨hiff, -, hinlines⟩ := inline_exact twofold_wellFormed ⟨3⟩
  obtain ⟨caller, callee, g, hcalls, hroom⟩ := hiff.1 hdone
  have hcall : twofold.callAt? ⟨3⟩ = some (⟨1⟩, .direct ⟨0⟩) := by decide +kernel
  cases hcalls.call.symm.trans hcall
  obtain ⟨copy, hcopy, hin⟩ := hinlines _ _ g hcalls hroom
  refine ⟨hrefused, hkept (by simp [hrefused]), hdone, g, copy, hcopy, ?_, hin⟩
  have hlength : (twofold.function? ⟨0⟩).map
      (fun g => (Body.draft (Body.withoutReturns g.instrs)).length) = some 3 := by decide +kernel
  rw [hcalls.callee_eq, Option.map_some, ← hcopy.draft_eq, Option.some.injEq] at hlength
  simpa [Body.draft] using hlength

end Module

end PhasedInlining
