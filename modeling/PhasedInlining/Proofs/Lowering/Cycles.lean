import PhasedInlining.Proofs.Lowering.Fixpoint
import PhasedInlining.Proofs.Lowering.Frame
import PhasedInlining.Proofs.Lowering.Residue

/-!
# What lowering callees first does to cycles

A function from which a call cycle can be reached is never handed out, so no call of it is replaced,
and none is copied, for a body is copied when all that it calls has been handed out
(`Visited.mem_call_iff`). The calls on a cycle are of this kind and stand when all is inlined, and
the sweep does not part a cycle. So every cycle comes through a run as it was
(`Module.IsCycle.of_kept`).
-/

namespace PhasedInlining

open CallSource Target
open Relation (ReflTransGen TransGen)

namespace Module.IsCycle

variable {m m' : Module} {c : List FunctionId}

/-- A way along a cycle does not leave it. -/
theorem transGen (h : m.IsCycle c) (hkept : ∀ a ∈ c, ∀ b ∈ c, m.Calls a b → m'.Calls a b)
    {f g : FunctionId} (hf : f ∈ c) (hg : g ∈ c) (hfg : TransGen m.Calls f g) :
    TransGen m'.Calls f g := by
  induction hfg with
  | single hfg => exact .single (hkept _ hf _ hg hfg)
  | tail hfk hkg ih =>
    have hgf := ((h.mem_iff hf).1 hg).2
    have hk := (h.mem_iff hf).2 ⟨hfk, hgf.head hkg⟩
    exact (ih hk).tail (hkept _ hk _ hg hkg)

/-- A cycle stays one if its calls stay and nothing new is reached. -/
theorem of_kept (h : m.IsCycle c) (hkept : ∀ a ∈ c, ∀ b ∈ c, m.Calls a b → m'.Calls a b)
    (hwithin : ∀ {a b}, m'.Calls a b → TransGen m.Calls a b) : m'.IsCycle c := by
  obtain ⟨f, hff, hf⟩ := h.exists_mem
  refine ⟨h.1, f, h.transGen hkept hf hf hff, fun g => ?_⟩
  constructor
  · intro hg
    obtain ⟨hfg, hgf⟩ := (h.mem_iff hf).1 hg
    exact ⟨h.transGen hkept hf hg hfg, h.transGen hkept hg hf hgf⟩
  · rintro ⟨hfg, hgf⟩
    exact (h.mem_iff hf).2 ⟨TransGen.closed (fun _ _ => hwithin) _ _ hfg,
      TransGen.closed (fun _ _ => hwithin) _ _ hgf⟩

end Module.IsCycle

section Inlining

variable {phase : Nat} {m₀ m : Module} {log : EventLog} (h₀ : m₀.WellFormed)
  (h : Visited phase m₀ m₀.visitOrder m log)
include h₀ h

/-- The calls of what is never handed out are those of before, handles included. -/
theorem Visited.mem_call_iff {f c : FunctionId} {x : CallSiteId}
    (hc : c ∈ (Snapshot.ofSource m₀).drain.unresolved) :
    .call x (.direct c) ∈ m.instrsOf f ↔ .call x (.direct c) ∈ m₀.instrsOf f := by
  have hnot := Snapshot.not_mem_ready_of_unresolved (Snapshot.records_ofSource m₀) hc
  constructor
  · exact fun hx => (h.origin hx (h₀.mem_unresolved.1 hc).1).resolve_right hnot
  · exact fun hx => h.kept hx hnot

theorem Visited.calls_of_unresolved {f g : FunctionId}
    (hg : g ∈ (Snapshot.ofSource m₀).drain.unresolved) (hfg : m₀.Calls f g) : m.Calls f g := by
  obtain ⟨hbody, x, hx⟩ := hfg
  exact ⟨by rwa [Module.hasBody_of_header? (h.header g)], x, (h.mem_call_iff h₀ hg).2 hx⟩

theorem Visited.isCycle (hwithin : ∀ {a b}, m.Calls a b → TransGen m₀.Calls a b)
    {c : List FunctionId} (hc : m₀.IsCycle c) : m.IsCycle c :=
  hc.of_kept (fun _ _ _ hb => h.calls_of_unresolved h₀
    (h₀.mem_unresolved_of_cycle (hc.on_cycle hb))) hwithin

end Inlining

section Sweep

variable {o : Options} {m₀ m m₁ : Module} (hs : Stages o m₀ m m₁)
include hs

theorem Stages.isCycle {c : List FunctionId} (hc : m.IsCycle c)
    (hlive : ∀ f ∈ c, m₁.contains f) : m₁.IsCycle c := by
  refine hc.of_kept (fun a ha b hb => (hs.calls_iff (hlive a ha) (hlive b hb)).2)
    fun {a b} hab => ?_
  obtain ⟨hbody, x, hx⟩ := hab
  exact .single ((hs.calls_iff (Module.contains_of_mem hx) (Module.contains_of_hasBody hbody)).1
    ⟨hbody, x, hx⟩)

end Sweep

/-- What a list of removed functions names is what is not left. -/
theorem Module.Accounts.contains_iff {m m' : Module} {removed : List RemovedFunction}
    (h : m.Accounts m' removed) {f : FunctionId} (hf : m.contains f) :
    m'.contains f ↔ f ∉ removed.map (·.id) := by
  constructor
  · intro hlive hmem
    rw [h.not_contains hmem] at hlive
    cases hlive
  · intro hnot
    by_contra hgone
    obtain ⟨g, hg⟩ := Module.contains_iff.1 hf
    exact hnot (List.mem_map.2 ⟨⟨f, g.name⟩, h.mem_iff.2 ⟨by simpa using hgone, g, hg, rfl⟩, rfl⟩)

/-- Lowering callees first leaves cycles alone: the calls of what could not be resolved are, under
their handles, those of before the run, but for the calls made by functions that the sweep removed,
and a cycle that the run names is a cycle of what it leaves. -/
theorem cycles_left_alone {o : Options} (ho : o.strategy = .bottomUp) {r r' : Run Module}
    {out : Outcome} (hwf : r.target.WellFormed) (h : lower o r = .ok (r', out)) :
    let m := (o.inlineStage r).run.target
    (∀ x f c, c ∈ out.residue.unresolved →
      (.call x (.direct c) ∈ m.instrsOf f ↔ .call x (.direct c) ∈ r.target.instrsOf f))
    ∧ (∀ x f c, c ∈ out.residue.unresolved → (.call x (.direct c) ∈ r'.target.instrsOf f ↔
      .call x (.direct c) ∈ m.instrsOf f ∧ f ∉ out.removed.map (·.id)))
    ∧ (o.diagnoses → ∀ c ∈ out.residue.cycles,
      (∀ f ∈ c, r'.target.contains f) ∧ r'.target.IsCycle c) := by
  have hresidue := lower_residue hwf h
  have haccounts := lower_accounts o hwf h
  obtain ⟨r₁, report, r₂, removed, hinlined, hsweep, hcomplete⟩ := (lower_stages o).1 h
  have hstages := stages_of_lower hwf hinlined hsweep
  have hinl := (Options.inlined_inlineStage hwf hinlined).1
  have hvisited : ∃ log, Visited o.phase r.target r.target.visitOrder r₁.target log := by
    obtain ⟨s₀, s, htarget, -, hvisits, rfl, -⟩ := o.inlineStage_bottomUp ho hinlined
    exact ⟨s.log, visited_foldlM hwf htarget hvisits⟩
  obtain ⟨log, hvisited⟩ := hvisited
  rw [hinlined]
  cases hcomplete
  refine ⟨fun x f c hc => ?_, fun x f c hc => ?_, fun hdiagnoses c hc => ?_⟩
  · rw [hresidue] at hc
    exact hvisited.mem_call_iff hwf hc
  · refine hstages.mem_instrsOf.trans (and_congr_right fun hx => haccounts.contains_iff ?_)
    rw [← Module.contains_of_header? (hstages.header f)]
    exact Module.contains_of_mem hx
  · rw [hresidue, o.cycles_residueOf hdiagnoses, hwf.mem_cycles] at hc
    have hcycle := hvisited.isCycle hwf hinl.cycles.within hc
    have htarget := o.target_diagnose (Snapshot.ofSource r.target) report r₁
    have hlive : ∀ f ∈ c, r₂.target.contains f := fun f hf =>
      o.sweepPhase_keeps_cycles (htarget ▸ hinl.wf) hsweep (htarget ▸ hcycle.on_cycle hf)
    exact ⟨hlive, hstages.isCycle hcycle hlive⟩

/-- Two functions that call each other, a leaf that one of them calls, and a function that nothing
uses and that calls into the cycle. All are marked for phase 1. -/
def Module.sidelined : Module :=
  (build "sidelined" [
    (({ name := "leaf" } : Function).withPhase 1, some [.op "work", .ret]),
    (({ name := "ping" } : Function).withPhase 1,
      some [.call () (.direct ⟨0⟩), .call () (.direct ⟨2⟩)]),
    (({ name := "pong" } : Function).withPhase 1, some [.call () (.direct ⟨1⟩), .ret]),
    (({ name := "entry" } : Function).withPhase 1, some [.call () (.direct ⟨1⟩), .ret])]).2

/-- The leaf is inlined and the entry is removed, with its call. The two functions of the cycle
stay one. -/
theorem cycles_left_alone_sidelined : ∃ r' out,
    lower { phase := 1 } { target := Module.sidelined } = .ok (r', out)
      ∧ out.removed.map (·.name) = ["leaf", "entry"]
      ∧ .call ⟨1⟩ (.direct ⟨2⟩) ∈ r'.target.instrsOf ⟨1⟩
      ∧ .call ⟨3⟩ (.direct ⟨1⟩) ∈ Module.sidelined.instrsOf ⟨3⟩
      ∧ .call ⟨3⟩ (.direct ⟨1⟩) ∉ r'.target.instrsOf ⟨3⟩
      ∧ r'.target.IsCycle [⟨1⟩, ⟨2⟩] := by
  have hwf : Module.sidelined.WellFormed := .build _ _
  have hrun : (lower { phase := 1 } { target := Module.sidelined }).toOption.any (fun e =>
      e.2.removed = [⟨⟨0⟩, "leaf"⟩, ⟨⟨3⟩, "entry"⟩] ∧ e.2.residue.cycles = [[⟨1⟩, ⟨2⟩]]
        ∧ e.2.residue.unresolved = [⟨1⟩, ⟨2⟩, ⟨3⟩]) = true := by
    decide +kernel
  obtain ⟨⟨r', out⟩, h, hcheck⟩ := exists_ok_of_any hrun
  obtain ⟨hremoved, hcycles, hunresolved⟩ := of_decide_eq_true hcheck
  dsimp only at hremoved hcycles hunresolved
  obtain ⟨hinlined, hswept, hkept⟩ :=
    cycles_left_alone (r := { target := Module.sidelined }) rfl hwf h
  refine ⟨r', out, h, by simp [hremoved], ?_, by decide +kernel, fun hx => ?_, ?_⟩
  · refine (hswept ⟨1⟩ ⟨1⟩ ⟨2⟩ (by simp [hunresolved])).2 ⟨?_, by simp [hremoved]⟩
    exact (hinlined ⟨1⟩ ⟨1⟩ ⟨2⟩ (by simp [hunresolved])).2 (by decide +kernel)
  · exact ((hswept ⟨3⟩ ⟨3⟩ ⟨1⟩ (by simp [hunresolved])).1 hx).2 (by simp [hremoved])
  · exact (hkept rfl _ (by simp [hcycles])).2

end PhasedInlining
