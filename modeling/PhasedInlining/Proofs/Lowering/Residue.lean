import PhasedInlining.Proofs.CallGraph.Components
import PhasedInlining.Proofs.Lowering.Rescan

/-!
# What a run reports as unresolved

Inlining keeps the functions from which a call cycle can be reached, so both strategies report what
the calls of the module before the run decide (`lower_residue`). This holds of the cycles as well: a
run names the call cycles of the module that it began with (`Module.WellFormed.mem_cycles`). Of such
a cycle inlining may have taken off functions of the phase. What it has left on a cycle is one cycle
again, and is not removed (`cycles_narrowed`). `Module.detour` shows that a cycle named by the run
need not be one any more, and that the run may itself remove a function that it names.
-/

namespace PhasedInlining

open CallSource Target
open Relation (ReflTransGen TransGen)

namespace Module

variable {m : Module} {c : List FunctionId} {f g : FunctionId}

/-- `c` lists, by their handles, the functions that lie on call cycles with some function. -/
def IsCycle (m : Module) (c : List FunctionId) : Prop :=
  c.Pairwise (· < ·) ∧ ∃ f, TransGen m.Calls f f
    ∧ ∀ g, g ∈ c ↔ TransGen m.Calls f g ∧ TransGen m.Calls g f

theorem IsCycle.on_cycle (h : m.IsCycle c) (hg : g ∈ c) : TransGen m.Calls g g := by
  obtain ⟨-, f, -, hmem⟩ := h
  obtain ⟨hfg, hgf⟩ := (hmem g).1 hg
  exact hgf.trans hfg

theorem IsCycle.mem_iff (h : m.IsCycle c) (hf : f ∈ c) :
    g ∈ c ↔ TransGen m.Calls f g ∧ TransGen m.Calls g f := by
  obtain ⟨-, k, -, hmem⟩ := h
  obtain ⟨hkf, hfk⟩ := (hmem f).1 hf
  rw [hmem]
  constructor
  · rintro ⟨hkg, hgk⟩
    exact ⟨hfk.trans hkg, hgk.trans hkf⟩
  · rintro ⟨hfg, hgf⟩
    exact ⟨hkf.trans hfg, hgf.trans hfk⟩

theorem IsCycle.exists_mem (h : m.IsCycle c) : ∃ f, TransGen m.Calls f f ∧ f ∈ c := by
  obtain ⟨-, f, hf, hmem⟩ := h
  exact ⟨f, hf, (hmem f).2 ⟨hf, hf⟩⟩

theorem isCycle_of_class (hsorted : c.Pairwise (· < ·)) (hf : TransGen m.Calls f f)
    (hmem : ∀ g, g ∈ c ↔ ReflTransGen m.Calls f g ∧ ReflTransGen m.Calls g f) : m.IsCycle c := by
  refine ⟨hsorted, f, hf, fun g => ?_⟩
  rw [hmem]
  constructor
  · rintro ⟨hfg, hgf⟩
    exact ⟨hf.trans_left hfg, hf.trans_right hgf⟩
  · rintro ⟨hfg, hgf⟩
    exact ⟨hfg.to_reflTransGen, hgf.to_reflTransGen⟩

section WellFormed

variable (h : m.WellFormed)
include h

theorem WellFormed.not_reached_of_uncalled
    (hg : ∀ k ∈ m.functionIds, g ∉ Body.callees (m.instrsOf k)) : ¬ TransGen m.Calls f g := by
  intro hfg
  obtain ⟨k, -, hkg⟩ := TransGen.tail'_iff.1 hfg
  obtain ⟨-, hmem⟩ := calls_iff_mem_callees.1 hkg
  obtain ⟨x, hx⟩ := Body.mem_callees.1 hmem
  exact hg k (h.mem_functionIds.2 (contains_of_mem hx)) hmem

open scoped Classical in
theorem WellFormed.exists_cycle (hf : TransGen m.Calls f f) : ∃ c, m.IsCycle c ∧ f ∈ c := by
  let inClass := fun g => decide (TransGen m.Calls f g ∧ TransGen m.Calls g f)
  have hmem : ∀ g, g ∈ m.functionIds.filter inClass
      ↔ TransGen m.Calls f g ∧ TransGen m.Calls g f := by
    intro g
    rw [List.mem_filter, decide_eq_true_eq]
    refine ⟨fun hg => hg.2, fun hg => ⟨?_, hg⟩⟩
    exact h.mem_functionIds.2 (contains_of_hasBody (hasBody_of_calls hg.1).2)
  exact ⟨_, ⟨(List.pairwise_map.2 h.functions_pairwise).filter _, f, hf, hmem⟩,
    (hmem f).2 ⟨hf, hf⟩⟩

theorem WellFormed.mem_unresolved_of_cycle (hf : TransGen m.Calls f f) :
    f ∈ (Snapshot.ofSource m).drain.unresolved :=
  h.mem_unresolved.2 ⟨(hasBody_of_calls hf).1, f, .refl, hf⟩

theorem WellFormed.mem_unresolved_of_reaches (hfg : ReflTransGen m.Calls f g)
    (hg : g ∈ (Snapshot.ofSource m).drain.unresolved) :
    f ∈ (Snapshot.ofSource m).drain.unresolved := by
  obtain ⟨hbody, k, hgk, hk⟩ := h.mem_unresolved.1 hg
  refine h.mem_unresolved.2 ⟨?_, k, hfg.trans hgk, hk⟩
  rcases Relation.reflTransGen_iff_eq_or_transGen.1 hfg with rfl | hfg
  · exact hbody
  · exact (hasBody_of_calls hfg).1

/-- A way to an unresolved function passes unresolved functions only. -/
theorem WellFormed.callsWithin_iff (hg : g ∈ (Snapshot.ofSource m).drain.unresolved) :
    ReflTransGen ((Snapshot.ofSource m).CallsWithin (Snapshot.ofSource m).drain.unresolved) f g
      ↔ ReflTransGen m.Calls f g := by
  constructor
  · exact ReflTransGen.mono (fun a b hab => h.calls_iff.1 hab.2.2) _ _
  · intro hfg
    induction hfg using ReflTransGen.head_induction_on with
    | refl => exact .refl
    | head hab hbg ih =>
      exact ih.head ⟨h.mem_unresolved_of_reaches (.head hab hbg) hg,
        h.mem_unresolved_of_reaches hbg hg, h.calls_iff.2 hab⟩

theorem WellFormed.component_class
    (hc : (Snapshot.ofSource m).IsComponent (Snapshot.ofSource m).drain.unresolved c) :
    ∃ f ∈ c, ∀ g, g ∈ c ↔ ReflTransGen m.Calls f g ∧ ReflTransGen m.Calls g f := by
  obtain ⟨-, f, hf, hmem⟩ := hc
  refine ⟨f, (hmem f).2 ⟨.refl, .refl⟩, fun g => ?_⟩
  rw [hmem, h.callsWithin_iff hf]
  constructor
  · rintro ⟨hfg, hgf⟩
    exact ⟨(h.callsWithin_iff (h.mem_unresolved_of_reaches hgf hf)).1 hfg, hgf⟩
  · rintro ⟨hfg, hgf⟩
    exact ⟨(h.callsWithin_iff (h.mem_unresolved_of_reaches hgf hf)).2 hfg, hgf⟩

theorem WellFormed.isComponent_of_isCycle (hc : m.IsCycle c) :
    (Snapshot.ofSource m).IsComponent (Snapshot.ofSource m).drain.unresolved c := by
  obtain ⟨hsorted, f, hf, hmem⟩ := hc
  refine ⟨hsorted, f, h.mem_unresolved_of_cycle hf, fun g => ?_⟩
  rw [hmem, h.callsWithin_iff (h.mem_unresolved_of_cycle hf)]
  constructor
  · rintro ⟨hfg, hgf⟩
    have hg := h.mem_unresolved_of_cycle (hgf.trans hfg)
    exact ⟨(h.callsWithin_iff hg).2 hfg.to_reflTransGen, hgf.to_reflTransGen⟩
  · rintro ⟨hfg, hgf⟩
    have hg := h.mem_unresolved_of_reaches hgf (h.mem_unresolved_of_cycle hf)
    exact ⟨hf.trans_left ((h.callsWithin_iff hg).1 hfg), hf.trans_right hgf⟩

/-- A component of several functions, or of one that calls itself, is one on a cycle. -/
theorem WellFormed.isCyclic_iff (hsorted : c.Pairwise (· < ·)) (hf : f ∈ c)
    (hmem : ∀ g, g ∈ c ↔ ReflTransGen m.Calls f g ∧ ReflTransGen m.Calls g f) :
    (Snapshot.ofSource m).IsCyclic c ↔ TransGen m.Calls f f := by
  constructor
  · rintro (hlength | ⟨g, rfl, hself⟩)
    · obtain ⟨g, hg, hne⟩ : ∃ g ∈ c, g ≠ f := by
        by_contra hall
        push Not at hall
        rcases c with _ | ⟨a, _ | ⟨b, c⟩⟩
        · simp at hlength
        · simp at hlength
        · have hlt := List.rel_of_pairwise_cons hsorted (List.mem_cons_self (a := b) (l := c))
          rw [hall a (by simp), hall b (by simp)] at hlt
          exact Nat.lt_irrefl _ hlt
      obtain ⟨hfg, hgf⟩ := (hmem g).1 hg
      have hfg' := (Relation.reflTransGen_iff_eq_or_transGen.1 hfg).resolve_left hne
      exact hfg'.trans_left hgf
    · rw [List.mem_singleton.1 hf]
      exact .single (h.calls_iff.1 hself)
  · intro hcycle
    obtain ⟨g, hfg, hgf⟩ := TransGen.head'_iff.1 hcycle
    have hg : g ∈ c := (hmem g).2 ⟨.single hfg, hgf⟩
    rcases c with _ | ⟨a, _ | ⟨b, c⟩⟩
    · simp at hf
    · rw [List.mem_singleton.1 hg, List.mem_singleton.1 hf] at hfg
      exact .inr ⟨a, rfl, h.calls_iff.2 hfg⟩
    · exact .inl (by simp)

theorem WellFormed.mem_cycles :
    c ∈ (Snapshot.ofSource m).cycles (Snapshot.ofSource m).drain.unresolved ↔ m.IsCycle c := by
  rw [Snapshot.mem_cycles_iff]
  constructor
  · rintro ⟨hcomponent, hcyclic⟩
    obtain ⟨f, hf, hmem⟩ := h.component_class hcomponent
    exact isCycle_of_class hcomponent.1 ((h.isCyclic_iff hcomponent.1 hf hmem).1 hcyclic) hmem
  · intro hc
    obtain ⟨f, hf, hfc⟩ := hc.exists_mem
    have hcomponent := h.isComponent_of_isCycle hc
    obtain ⟨k, hk, hmem⟩ := h.component_class hcomponent
    obtain ⟨hkf, hfk⟩ := (hmem f).1 hfc
    exact ⟨hcomponent,
      (h.isCyclic_iff hcomponent.1 hk hmem).2 ((hf.trans_right hkf).trans_left hfk)⟩

end WellFormed

end Module

section Drain

variable {phase : Nat} {m₀ m : Module} (h₀ : m₀.WellFormed) (h : Inlined phase m₀ m)
include h₀ h

theorem Inlined.unresolved_drain :
    (Snapshot.ofSource m).drain.unresolved = (Snapshot.ofSource m₀).drain.unresolved := by
  refine FunctionId.eq_of_mem_iff (Worklist.unresolved_pairwise _) (Worklist.unresolved_pairwise _)
    fun f => ?_
  rw [h.wf.mem_unresolved, h₀.mem_unresolved, Module.hasBody_of_header? (h.header f),
    h.cycles.reachesCycle_iff]

theorem Inlined.total_drain :
    (Snapshot.ofSource m).drain.total = (Snapshot.ofSource m₀).drain.total := by
  rw [Snapshot.total_drain (Snapshot.records_ofSource m),
    Snapshot.total_drain (Snapshot.records_ofSource m₀), Snapshot.functionCount,
    Snapshot.functionCount, ← Std.TreeMap.length_keys, ← Std.TreeMap.length_keys]
  refine ((List.perm_ext_iff_of_nodup Std.TreeMap.nodup_keys Std.TreeMap.nodup_keys).2
    fun f => ?_).length_eq
  have hbody : ∀ {m : Module}, m.WellFormed →
      (f ∈ (Snapshot.ofSource m).pending.keys ↔ m.hasBody f) := by
    intro m hm
    rw [Std.TreeMap.mem_keys, ← Std.TreeMap.contains_iff_mem, ← Snapshot.contains_ofModule hm]
    rfl
  rw [hbody h.wf, hbody h₀, Module.hasBody_of_header? (h.header f)]

theorem Inlined.processed_drain :
    (Snapshot.ofSource m).drain.processed = (Snapshot.ofSource m₀).drain.processed := by
  have hadd := Snapshot.processed_add_unresolved (Snapshot.records_ofSource m)
  have hadd₀ := Snapshot.processed_add_unresolved (Snapshot.records_ofSource m₀)
  rw [h.unresolved_drain h₀, h.total_drain h₀] at hadd
  omega

end Drain

theorem report_rescan {phase cap : Nat} {r r' : Run Module} {report : InlineReport}
    (h : rescan phase cap r = .ok (r', report)) :
    ∃ s : Inlining Module, report = s.report (Snapshot.ofSource r'.target).drain := by
  have hrepeated : ∀ (left : Nat) (s : Scan Module), s.repeated phase cap left = .ok (r', report) →
      ∃ s : Inlining Module, report = s.report (Snapshot.ofSource r'.target).drain := by
    intro left
    induction left with
    | zero =>
      intro s hs
      cases hs
    | succ left ih =>
      intro s hs
      unfold Scan.repeated at hs
      rcases ho : s.once phase (cap - left) with halt | s₁ <;> rw [ho] at hs
      · cases hs
      · simp only [] at hs
        split_ifs at hs
        · exact ih s₁ hs
        · cases hs
          exact ⟨s₁.toInlining, rfl⟩
  exact hrepeated cap _ h

namespace Options

/-- What a run has to report of a module with these calls. -/
def residueOf (o : Options) (s : Snapshot) : Residue where
  processed := s.drain.processed
  total := s.drain.total
  unresolved := s.drain.unresolved
  cycles := if o.diagnoses then s.cycles s.drain.unresolved else []

theorem cycles_residueOf (o : Options) (ho : o.diagnoses) (s : Snapshot) :
    (o.residueOf s).cycles = s.cycles s.drain.unresolved :=
  if_pos ho

theorem residue_diagnose (o : Options) {s : Snapshot} {report : InlineReport} (r : Run Module)
    (hprocessed : report.processed = s.drain.processed) (htotal : report.total = s.drain.total)
    (hunresolved : report.unresolved = s.drain.unresolved) :
    (o.diagnose s report r).2 = o.residueOf s := by
  unfold diagnose residueOf
  simp only [Residue.isEmpty, hprocessed, htotal, hunresolved]
  split_ifs with hempty hdiagnoses
  · rw [List.isEmpty_iff.1 hempty]
    rfl
  · rw [List.isEmpty_iff.1 hempty]
  · rfl
  · rfl

variable {o : Options} {r r₁ : Run Module} {report : InlineReport}

/-- Whichever strategy inlines a phase keeps to inlining, and reports on a module that is the first
one with calls replaced. -/
theorem inlined_inlineStage (hwf : r.target.WellFormed)
    (h : o.inlineStage r = .ok (r₁, report)) :
    Inlined o.phase r.target r₁.target ∧ ∃ (s : Inlining Module) (m : Module),
      Inlined o.phase r.target m ∧ report = s.report (Snapshot.ofSource m).drain := by
  obtain ⟨r₀, -, htarget, hinline⟩ := o.inlineStage_ok.1 h
  rw [← htarget] at hwf hinline ⊢
  unfold inlinePhase at hinline
  split at hinline
  · refine ⟨inlined_bottomUp (r := (o.begin r₀).1) hwf hinline, ?_⟩
    obtain ⟨s, -, heq⟩ := map_eq_ok.1 hinline
    cases heq
    exact ⟨s, r₀.target, .refl hwf, rfl⟩
  · have hinlined := (rescan_settles (r := (o.begin r₀).1) hwf hinline).toInlined
    obtain ⟨s, hs⟩ := report_rescan hinline
    exact ⟨hinlined, s, r₁.target, hinlined, hs⟩

end Options

theorem lower_residue {o : Options} {r r' : Run Module} {out : Outcome}
    (hwf : r.target.WellFormed) (h : lower o r = .ok (r', out)) :
    out.residue = o.residueOf (Snapshot.ofSource r.target) := by
  obtain ⟨r₁, report, r₂, removed, hinlined, -, hcomplete⟩ := (lower_stages o).1 h
  cases hcomplete
  obtain ⟨-, s, m, hm, rfl⟩ := Options.inlined_inlineStage hwf hinlined
  exact o.residue_diagnose r₁ (hm.processed_drain hwf) (hm.total_drain hwf)
    (hm.unresolved_drain hwf)

/-- The strategies report the same as unresolved, the functions from which a call cycle can be
reached. -/
theorem strategies_share_residue (o : Options) (a b : Strategy) {r r' r₁ r₁' : Run Module}
    {out out' : Outcome} (hsame : r'.target = r.target) (hwf : r.target.WellFormed)
    (h : lower { o with strategy := a } r = .ok (r₁, out))
    (h' : lower { o with strategy := b } r' = .ok (r₁', out')) :
    out'.residue = out.residue
      ∧ ∀ f, f ∈ out.residue.unresolved ↔ r.target.hasBody f ∧ ReachesCycle r.target.Calls f := by
  have hresidue := lower_residue hwf h
  have hresidue' := lower_residue (hsame ▸ hwf) h'
  rw [hsame] at hresidue'
  refine ⟨hresidue'.trans hresidue.symm, fun f => ?_⟩
  rw [hresidue]
  exact hwf.mem_unresolved

/-- A cycle of three functions, of which the one in the middle is marked for phase 1. -/
def Module.detour : Module :=
  (build "detour" [
    ({ name := "outer" }, some [.call () (.direct ⟨1⟩), .ret]),
    (({ name := "step" } : Function).withPhase 1, some [.call () (.direct ⟨2⟩), .ret]),
    ({ name := "inner" }, some [.call () (.direct ⟨0⟩), .ret])]).2

theorem Module.detour_wellFormed : detour.WellFormed := .build _ _

/-- Scanning takes the function in the middle off the cycle, and the run removes it. The residue is
that of the run that leaves the cycle alone. -/
theorem strategies_share_residue_detour : ∃ r r' out out',
    lower { phase := 1, strategy := .bottomUp } { target := Module.detour } = .ok (r, out)
      ∧ lower { phase := 1, strategy := .rescan 4 } { target := Module.detour } = .ok (r', out')
      ∧ out.removed = [] ∧ out'.removed = [⟨⟨1⟩, "step"⟩]
      ∧ out.residue.cycles = [[⟨0⟩, ⟨1⟩, ⟨2⟩]] ∧ out'.residue = out.residue := by
  have hrun : (lower { phase := 1 } { target := Module.detour }).toOption.any (fun e =>
      e.2.removed = [] ∧ e.2.residue.cycles = [[⟨0⟩, ⟨1⟩, ⟨2⟩]]) = true := by
    decide +kernel
  have hrun' : (lower { phase := 1, strategy := .rescan 4 }
      { target := Module.detour }).toOption.any (·.2.removed = [⟨⟨1⟩, "step"⟩]) = true := by
    decide +kernel
  obtain ⟨⟨r, out⟩, h, hcheck⟩ := exists_ok_of_any hrun
  obtain ⟨⟨r', out'⟩, h', hcheck'⟩ := exists_ok_of_any hrun'
  obtain ⟨hremoved, hcycles⟩ := of_decide_eq_true hcheck
  have hshared := strategies_share_residue { phase := 1 } .bottomUp (.rescan 4)
    (r := { target := Module.detour }) (by rfl) Module.detour_wellFormed h h'
  exact ⟨r, r', out, out', h, h', hremoved, of_decide_eq_true hcheck', hcycles, hshared.1⟩

section Narrowed

open scoped Classical in
theorem Inlined.exists_narrowed {phase : Nat} {m₀ m : Module} (h : Inlined phase m₀ m)
    {c : List FunctionId} (hc : m₀.IsCycle c) :
    ∃ c', m.IsCycle c' ∧ ∀ f, f ∈ c' ↔ f ∈ c ∧ TransGen m.Calls f f := by
  obtain ⟨f, hf, hfc⟩ := hc.exists_mem
  obtain ⟨b, hb, hfb, hbf⟩ := h.cycles.left hf
  have hbc : b ∈ c := (hc.mem_iff hfc).2 ⟨hfb, hbf⟩
  have hmem : ∀ g, g ∈ c.filter (fun g => decide (TransGen m.Calls g g))
      ↔ g ∈ c ∧ TransGen m.Calls g g := by
    intro g
    rw [List.mem_filter, decide_eq_true_eq]
  refine ⟨_, ⟨hc.1.filter _, b, hb, fun g => ?_⟩, hmem⟩
  rw [hmem, hc.mem_iff hbc, h.cycles.cycle_iff hb, and_comm]

theorem Options.sweepPhase_keeps_cycles (o : Options) {r r' : Run Module}
    {removed : List RemovedFunction} (hwf : r.target.WellFormed)
    (h : o.sweepPhase r = .ok (r', removed)) {f : FunctionId} (hf : TransGen r.target.Calls f f) :
    r'.target.contains f := by
  have hkeeps := o.sweepPhase_keeps
    (P := fun k => r.target.Prunes k ∧ ∀ f, TransGen r.target.Calls f f → k.contains f)
    (fun r₁ hr₁ => Sweep.sweep_keeps (fun k f _ hk hunused _ => ?_) r₁ hr₁.1.wf hr₁) r
    ⟨.refl hwf, fun f hf => Module.contains_of_hasBody (Module.hasBody_of_calls hf).1⟩
  · rw [h] at hkeeps
    exact hkeeps.2 f hf
  · refine ⟨hk.1.remove hunused, fun g hg => ?_⟩
    rw [Module.contains_remove, hk.2 g hg, Bool.true_and, decide_eq_true_eq]
    rintro rfl
    obtain ⟨b, hgb, hbg⟩ := TransGen.tail'_iff.1 hg
    have hb : k.contains b := hk.2 b (.head' hbg hgb)
    obtain ⟨-, x, hx⟩ := hbg
    rw [Module.instrsOf, ← hk.1.function?_eq b hb, ← Module.instrsOf] at hx
    exact hunused b (Body.mem_uses.2 (.inl ⟨x, hx⟩))

end Narrowed

/-- A run names the call cycles of the module that it began with. Of each, what inlining has left on
a cycle is one cycle, on which all functions are that were not to be inlined; there are no other
cycles, and what lies on one is not removed. -/
theorem cycles_narrowed {o : Options} (ho : o.diagnoses) {r r' : Run Module} {out : Outcome}
    (hwf : r.target.WellFormed) (h : lower o r = .ok (r', out)) :
    let m := (o.inlineStage r).run.target
    (∀ c, c ∈ out.residue.cycles ↔ r.target.IsCycle c)
      ∧ (∀ c ∈ out.residue.cycles, ∃ c', m.IsCycle c'
        ∧ (∀ f, f ∈ c' ↔ f ∈ c ∧ TransGen m.Calls f f)
        ∧ ∀ f ∈ c, ¬ r.target.Inlinable o.phase f → f ∈ c')
      ∧ (∀ c', m.IsCycle c' → ∃ c ∈ out.residue.cycles, ∀ f ∈ c', f ∈ c)
      ∧ ∀ c', m.IsCycle c' → ∀ f ∈ c', r'.target.contains f := by
  have hcycles : ∀ c, c ∈ out.residue.cycles ↔ r.target.IsCycle c := by
    intro c
    rw [lower_residue hwf h, o.cycles_residueOf ho, hwf.mem_cycles]
  obtain ⟨r₁, report, r₂, removed, hinlined, hsweep, hcomplete⟩ := (lower_stages o).1 h
  have hinl := (Options.inlined_inlineStage hwf hinlined).1
  rw [hinlined]
  cases hcomplete
  refine ⟨hcycles, fun c hc => ?_, fun c' hc' => ?_, fun c' hc' f hf => ?_⟩
  · obtain ⟨c', hc', hmem⟩ := hinl.exists_narrowed ((hcycles c).1 hc)
    refine ⟨c', hc', hmem, fun f hf hno => (hmem f).2 ⟨hf, ?_⟩⟩
    exact hinl.cycles.stays (((hcycles c).1 hc).on_cycle hf) hno
  · obtain ⟨b, hb, hbc'⟩ := hc'.exists_mem
    obtain ⟨c, hc, hbc⟩ := hwf.exists_cycle (hinl.cycles.transGen hb)
    refine ⟨c, (hcycles c).2 hc, fun f hf => (hc.mem_iff hbc).2 ?_⟩
    obtain ⟨hbf, hfb⟩ := (hc'.mem_iff hbc').1 hf
    exact ⟨hinl.cycles.transGen hbf, hinl.cycles.transGen hfb⟩
  · have htarget := o.target_diagnose (Snapshot.ofSource r.target) report r₁
    refine o.sweepPhase_keeps_cycles (htarget ▸ hinl.wf) hsweep ?_
    rw [htarget]
    exact hc'.on_cycle hf

/-- The functions of the cycle that are not of the phase stay on a cycle, and stay. -/
theorem cycles_narrowed_detour : ∃ r' out c,
    lower { phase := 1, strategy := .rescan 4 } { target := Module.detour } = .ok (r', out)
      ∧ (Options.inlineStage { phase := 1, strategy := .rescan 4 }
        { target := Module.detour }).run.target.IsCycle c
      ∧ ⟨0⟩ ∈ c ∧ ⟨2⟩ ∈ c ∧ r'.target.contains ⟨0⟩ ∧ r'.target.contains ⟨2⟩ := by
  have hrun : (lower { phase := 1, strategy := .rescan 4 }
      { target := Module.detour }).toOption.any ([⟨0⟩, ⟨1⟩, ⟨2⟩] ∈ ·.2.residue.cycles) = true := by
    decide +kernel
  have hother : ∀ f ∈ [(⟨0⟩ : FunctionId), ⟨2⟩], ¬ Module.detour.Inlinable 1 f := by
    have hunmarked : ∀ f ∈ [(⟨0⟩ : FunctionId), ⟨2⟩],
        (isMarked 1 Module.detour f).toOption ≠ some true := by decide +kernel
    exact fun f hf hinlinable => hunmarked f hf (toOption_eq_some.2 hinlinable.1)
  obtain ⟨⟨r', out⟩, h, hcheck⟩ := exists_ok_of_any hrun
  obtain ⟨-, hnarrowed, -, hkept⟩ := cycles_narrowed (r := { target := Module.detour }) rfl
    Module.detour_wellFormed h
  obtain ⟨c, hc, -, hstays⟩ := hnarrowed _ (of_decide_eq_true hcheck)
  have h0 := hstays ⟨0⟩ (by simp) (hother ⟨0⟩ (by simp))
  have h2 := hstays ⟨2⟩ (by simp) (hother ⟨2⟩ (by simp))
  exact ⟨r', out, c, h, hc, h0, h2, hkept c hc _ h0, hkept c hc _ h2⟩

/-- A cycle that a run names need not be one when the run has inlined, and the run may remove a
function that it names. -/
theorem cycle_named_and_broken : Module.detour.WellFormed ∧ ∃ r' out,
    lower { phase := 1, strategy := .rescan 4 } { target := Module.detour } = .ok (r', out)
      ∧ [⟨0⟩, ⟨1⟩, ⟨2⟩] ∈ out.residue.cycles
      ∧ ¬ (Options.inlineStage { phase := 1, strategy := .rescan 4 }
        { target := Module.detour }).run.target.IsCycle [⟨0⟩, ⟨1⟩, ⟨2⟩]
      ∧ ⟨⟨1⟩, "step"⟩ ∈ out.removed ∧ r'.target.contains ⟨1⟩ = false := by
  have hrun : (lower { phase := 1, strategy := .rescan 4 }
      { target := Module.detour }).toOption.any (fun e =>
        [⟨0⟩, ⟨1⟩, ⟨2⟩] ∈ e.2.residue.cycles ∧ ⟨⟨1⟩, "step"⟩ ∈ e.2.removed
          ∧ e.1.target.contains ⟨1⟩ = false) = true := by
    decide +kernel
  obtain ⟨⟨r', out⟩, h, hcheck⟩ := exists_ok_of_any hrun
  obtain ⟨hcycle, hremoved, hgone⟩ := of_decide_eq_true hcheck
  refine ⟨Module.detour_wellFormed, r', out, h, hcycle, fun hbroken => ?_, hremoved, hgone⟩
  have hwf : (Options.inlineStage { phase := 1, strategy := .rescan 4 }
      { target := Module.detour }).run.target.WellFormed := by
    obtain ⟨r₁, report, -, -, hinlined, -⟩ := (lower_stages _).1 h
    rw [hinlined]
    exact (Options.inlined_inlineStage Module.detour_wellFormed hinlined).1.wf
  exact hwf.not_reached_of_uncalled (by decide +kernel) (hbroken.on_cycle (g := ⟨1⟩) (by simp))

end PhasedInlining
