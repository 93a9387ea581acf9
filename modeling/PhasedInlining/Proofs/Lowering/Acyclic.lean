import PhasedInlining.Proofs.CallGraph.Exactness
import PhasedInlining.Proofs.Lowering.Completeness

/-!
# Lowering without cycles

Where no function of a phase reaches a call cycle, lowering the phase callees first leaves no call
of a function whose body may be copied. It is not enough that no function of the phase lies on a
cycle: one that calls into a cycle of functions outside the phase waits for it as well
(`Module.behindLoop`). And handles may run out, with or without cycles (`Module.spent`).
-/

namespace PhasedInlining

open CallSource Target
open Relation (TransGen)

namespace Module

variable {m : Module}

/-- Where calls go only to functions added before, there is no cycle. -/
theorem acyclic_of_callees_lt
    (h : ∀ f ∈ m.functionIds, ∀ c ∈ Body.callees (m.instrsOf f), c < f) (hwf : m.WellFormed)
    (f : FunctionId) : ¬ TransGen m.Calls f f := by
  have hstep : ∀ f g, m.Calls f g → g.index < f.index := by
    rintro f g ⟨-, x, hx⟩
    refine h f (hwf.mem_functionIds.2 (contains_of_mem hx)) g ?_
    exact List.mem_filterMap.2 ⟨_, hx, rfl⟩
  intro hcycle
  have hlt : ∀ g, TransGen m.Calls f g → g.index < f.index := by
    intro g hg
    induction hg with
    | single hg => exact hstep _ _ hg
    | tail _ hg ih => exact (hstep _ _ hg).trans ih
  exact Nat.lt_irrefl _ (hlt f hcycle)

/-- A leaf, a stub that must not be copied, a function that calls both, and a protected function
that calls this one and the leaf. All but the last are marked for phase 1. -/
def layered : Module :=
  (build "layered" [
    (({ name := "leaf" } : Function).withPhase 1, some [.op "work", .call () .indirect, .ret]),
    ((({ name := "stub" } : Function).withPhase 1).withFlags { noInline := true },
      some [.call () (.direct ⟨0⟩), .ret]),
    (({ name := "middle" } : Function).withPhase 1,
      some [.call () (.direct ⟨0⟩), .call () (.direct ⟨1⟩)]),
    (({ name := "main" } : Function).withProtection,
      some [.call () (.direct ⟨2⟩), .call () (.direct ⟨0⟩), .call () (.direct ⟨2⟩), .ret])]).2

theorem layered_wellFormed : layered.WellFormed := .build _ _

theorem layered_acyclic (f : FunctionId) : ¬ TransGen layered.Calls f f :=
  acyclic_of_callees_lt (by decide +kernel) layered_wellFormed f

end Module

/-- Where no function of the phase reaches a call cycle, and handles have not run out, lowering
callees first leaves only calls of functions that must not be copied. -/
theorem no_call_left_of_acyclic {o : Options} (ho : o.strategy = .bottomUp) {r r' : Run Module}
    {out : Outcome} (hwf : r.target.WellFormed)
    (hacyclic : ∀ f, isMarked o.phase r.target f = .ok true → ¬ ReachesCycle r.target.Calls f)
    (h : lower o r = .ok (r', out)) {f y : FunctionId} {x : CallSiteId} {g : Function}
    (hx : .call x (.direct y) ∈ r'.target.instrsOf f) (hg : r'.target.function? y = some g)
    (hbody : g.hasBody) (hmarked : isMarked o.phase r'.target y = .ok true)
    (hroom : ¬ r'.target.Exhausted out.log y) : g.flags.noInline := by
  obtain ⟨m, log, hl⟩ := lower_leaves ho hwf h
  rcases hl.call_left hwf hx hg hbody hmarked with hno | hunresolved | hspent
  · exact hno
  · have hhead := hl.header?_eq (Module.contains_iff.2 ⟨g, hg⟩)
    rw [Module.isMarked_of_header? hhead] at hmarked
    rw [hl.unresolved, hwf.mem_unresolved] at hunresolved
    exact absurd hunresolved.2 (hacyclic y hmarked)
  · exact absurd hspent hroom

/-- Of the layered functions only the stub, which must not be copied, is called in the end. -/
theorem no_call_left_of_acyclic_layered : ∃ r' out g,
    lower { phase := 1 } { target := Module.layered } = .ok (r', out)
      ∧ .call ⟨11⟩ (.direct ⟨1⟩) ∈ r'.target.instrsOf ⟨3⟩
      ∧ r'.target.function? ⟨1⟩ = some g ∧ g.flags.noInline := by
  have hrun : (lower { phase := 1 } { target := Module.layered }).toOption.any (fun e =>
      .call ⟨11⟩ (.direct ⟨1⟩) ∈ e.1.target.instrsOf ⟨3⟩
        ∧ (e.1.target.function? ⟨1⟩).any (·.hasBody)
        ∧ (isMarked 1 e.1.target ⟨1⟩).toOption = some true ∧ ¬ e.2.log.Starved ⟨1⟩) = true := by
    decide +kernel
  obtain ⟨⟨r', out⟩, h, hcheck⟩ := exists_ok_of_any hrun
  obtain ⟨hx, hbody, hmarked, hroom⟩ := of_decide_eq_true hcheck
  obtain ⟨g, hg, hgbody⟩ := (Option.any_eq_true _ _).1 hbody
  have hacyclic : ∀ f, ¬ ReachesCycle Module.layered.Calls f := by
    rintro f ⟨c, -, hc⟩
    exact Module.layered_acyclic c hc
  refine ⟨r', out, g, h, hx, hg, ?_⟩
  exact no_call_left_of_acyclic (r := { target := Module.layered }) rfl Module.layered_wellFormed
    (fun f _ => hacyclic f) h hx hg hgbody (toOption_eq_some.1 hmarked) fun hspent => hroom hspent.2

section Counterexample

/-- A function of phase 1 that calls a loop outside the phase, and a function that calls it. -/
def Module.behindLoop : Module :=
  (build "behind loop" [
    (({ name := "step" } : Function).withPhase 1, some [.call () (.direct ⟨1⟩), .ret]),
    ({ name := "loop" }, some [.call () (.direct ⟨1⟩)]),
    (({ name := "main" } : Function).withProtection, some [.call () (.direct ⟨0⟩), .ret])]).2

/-- A function of phase 1 with a call in its body, which is called, and no handle left. -/
def Module.spent : Module :=
  let m := (build "spent" [
    (({ name := "step" } : Function).withPhase 1, some [.call () .indirect, .ret]),
    (({ name := "main" } : Function).withProtection, some [.call () (.direct ⟨0⟩), .ret])]).2
  { m with nextSite := maxNumber }

variable {m : Module}

/-- Though no function of phase 1 lies on a call cycle, lowering the phase leaves a call of one
whose body may be copied. -/
def Module.LeavesCall (m : Module) : Prop :=
  m.WellFormed ∧ (∀ f, isMarked 1 m f = .ok true → ¬ TransGen m.Calls f f)
    ∧ ∃ r' out, lower { phase := 1 } { target := m } = .ok (r', out)
      ∧ ∃ f y x g, .call x (.direct y) ∈ r'.target.instrsOf f ∧ r'.target.function? y = some g
        ∧ g.hasBody ∧ g.flags.noInline = false ∧ isMarked 1 r'.target y = .ok true

theorem Module.leavesCall_of_run (hwf : m.WellFormed)
    (hoff : ∀ f, isMarked 1 m f = .ok true → ¬ TransGen m.Calls f f) {f y : FunctionId}
    {x : CallSiteId}
    (hrun : (lower { phase := 1 } { target := m }).toOption.any (fun e =>
      .call x (.direct y) ∈ e.1.target.instrsOf f ∧ (e.1.target.function? y).any (·.isInlinable)
        ∧ (isMarked 1 e.1.target y).toOption = some true) = true) : m.LeavesCall := by
  refine ⟨hwf, hoff, ?_⟩
  obtain ⟨⟨r', out⟩, h, hcheck⟩ := exists_ok_of_any hrun
  obtain ⟨hx, hinlinable, hmarked⟩ := of_decide_eq_true hcheck
  obtain ⟨g, hg, hgi⟩ := (Option.any_eq_true _ _).1 hinlinable
  simp only [Function.isInlinable, Bool.and_eq_true, Bool.not_eq_true'] at hgi
  exact ⟨r', out, h, f, y, x, g, hx, hg, hgi.1, hgi.2, toOption_eq_some.1 hmarked⟩

theorem Module.behindLoop_wellFormed : behindLoop.WellFormed := .build _ _

/-- The function of the phase calls the loop, and from there no call leads back to it. -/
theorem Module.behindLoop_off_cycle {f : FunctionId}
    (hmarked : isMarked 1 behindLoop f = .ok true) : ¬ TransGen behindLoop.Calls f f := by
  have hf : f = ⟨0⟩ := by
    have hmem := behindLoop_wellFormed.mem_functionIds.2 (contains_of_isMarked hmarked)
    have honly : ∀ f ∈ behindLoop.functionIds, (isMarked 1 behindLoop f).toOption = some true →
        f = ⟨0⟩ := by decide +kernel
    exact honly f hmem (toOption_eq_some.2 hmarked)
  have hcallees : ∀ f ∈ [(⟨0⟩ : FunctionId), ⟨1⟩],
      Body.callees (behindLoop.instrsOf f) = [⟨1⟩] := by
    decide +kernel
  have hstep : ∀ {f g}, f ∈ [(⟨0⟩ : FunctionId), ⟨1⟩] → behindLoop.Calls f g → g = ⟨1⟩ := by
    rintro f g hf ⟨-, x, hx⟩
    have hg : g ∈ Body.callees (behindLoop.instrsOf f) := List.mem_filterMap.2 ⟨_, hx, rfl⟩
    rw [hcallees f hf] at hg
    exact List.mem_singleton.1 hg
  have hreach : ∀ g, TransGen behindLoop.Calls ⟨0⟩ g → g = ⟨1⟩ := by
    intro g hg
    induction hg with
    | single hg => exact hstep (by simp) hg
    | tail _ hg ih => exact hstep (by simp [ih]) hg
  subst hf
  intro hcycle
  cases hreach _ hcycle

theorem Module.WellFormed.skip_sites (h : m.WellFormed) {n : Nat} (hn : m.nextSite ≤ n) :
    ({ m with nextSite := n } : Module).WellFormed :=
  ⟨h.slot_id, h.byName_iff, h.owner_iff,
    fun f s hs => Nat.lt_of_lt_of_le (h.site_lt f s hs) hn, h.sites_nodup⟩

theorem Module.spent_wellFormed : spent.WellFormed :=
  (WellFormed.build _ _).skip_sites (by decide +kernel)

/-- That no function of the phase lies on a call cycle is not enough. -/
theorem call_left_off_cycles : Module.behindLoop.LeavesCall ∧ Module.spent.LeavesCall :=
  ⟨Module.leavesCall_of_run (f := ⟨2⟩) (y := ⟨0⟩) (x := ⟨2⟩) Module.behindLoop_wellFormed
    (fun _ => Module.behindLoop_off_cycle) (by decide +kernel),
  Module.leavesCall_of_run (f := ⟨1⟩) (y := ⟨0⟩) (x := ⟨1⟩) Module.spent_wellFormed
    (fun f _ => Module.acyclic_of_callees_lt (by decide +kernel) Module.spent_wellFormed f)
    (by decide +kernel)⟩

end Counterexample

end PhasedInlining
