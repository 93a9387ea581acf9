import Mathlib.Order.Lattice.Nat
import PhasedInlining.Proofs.Lowering.Convergence
import PhasedInlining.Proofs.Lowering.Faults

/-!
# How many scans are needed

Whatever a scan copies is a function of the phase. So a call that a function of the phase makes
after some scans goes where a chain of calls between functions of the phase led before
(`Inlined.phaseCalls`), and if these calls form no cycle, the longest chain behind a function is a
rank that every copy lowers (`descends_depth`). More scans than the longest chain of the module has
functions are therefore enough. Cycles through functions that are not of the phase do not matter.
-/

namespace PhasedInlining

open CallSource Target
open Relation (ReflTransGen TransGen)

/-- A call in an expansion stood in the body, or is reached from one that did through bodies that
were copied. -/
theorem Expands.origin {P : FunctionId → Prop} {body : FunctionId → Draft} {is js : Draft}
    (h : Expands P body is js) {f : FunctionId} (hf : .call () (.direct f) ∈ js) :
    ∃ c, .call () (.direct c) ∈ is
      ∧ ReflTransGen (fun a b => P a ∧ .call () (.direct b) ∈ body a) c f := by
  induction h with
  | nil => cases hf
  | keep i _ ih =>
    rcases List.mem_cons.1 hf with rfl | hf
    · exact ⟨f, List.mem_cons_self, .refl⟩
    · obtain ⟨c, hc, hcf⟩ := ih hf
      exact ⟨c, List.mem_cons_of_mem _ hc, hcf⟩
  | @copy k _ _ _ hk _ _ ihcopy ih =>
    rcases List.mem_append.1 hf with hf | hf
    · obtain ⟨c, hc, hcf⟩ := ihcopy hf
      exact ⟨k, List.mem_cons_self, .head ⟨hk, hc⟩ hcf⟩
    · obtain ⟨c, hc, hcf⟩ := ih hf
      exact ⟨c, List.mem_cons_of_mem _ hc, hcf⟩

namespace Module

variable {phase : Nat} {m : Module} {f g : FunctionId} {fs : List FunctionId}

/-- The function has a body and is marked for the phase. -/
def OfPhase (phase : Nat) (m : Module) (f : FunctionId) : Prop :=
  m.hasBody f ∧ isMarked phase m f = .ok true

/-- One function of the phase calls another one directly. -/
def PhaseCalls (phase : Nat) (m : Module) (f g : FunctionId) : Prop :=
  m.OfPhase phase f ∧ m.OfPhase phase g ∧ m.Calls f g

/-- Functions of the phase, each of which calls the next one directly. -/
structure PhaseChain (phase : Nat) (m : Module) (fs : List FunctionId) : Prop where
  ofPhase : ∀ f ∈ fs, m.OfPhase phase f
  calls : fs.IsChain m.Calls

theorem Inlinable.ofPhase (h : m.Inlinable phase f) : m.OfPhase phase f := ⟨h.hasBody, h.1⟩

theorem phaseChain_nil : m.PhaseChain phase [] := ⟨by simp, .nil⟩

theorem phaseChain_singleton (hf : m.OfPhase phase f) : m.PhaseChain phase [f] :=
  ⟨by simpa using hf, .singleton f⟩

theorem PhaseChain.cons (h : m.PhaseChain phase (g :: fs)) (hfg : m.PhaseCalls phase f g) :
    m.PhaseChain phase (f :: g :: fs) := by
  refine ⟨fun k hk => ?_, .cons_cons hfg.2.2 h.calls⟩
  rcases List.mem_cons.1 hk with rfl | hk
  · exact hfg.1
  · exact h.ofPhase k hk

/-- The number of functions on the longest chain that begins with `f`. -/
noncomputable def depth (phase : Nat) (m : Module) (f : FunctionId) : Nat :=
  sSup {n | ∃ fs, m.PhaseChain phase (f :: fs) ∧ (f :: fs).length = n}

section Acyclic

variable (hwf : m.WellFormed) (hacyclic : ∀ f, ¬ TransGen (m.PhaseCalls phase) f f)
include hwf hacyclic

/-- Without a cycle no function is twice on a chain. -/
theorem PhaseChain.length_le (h : m.PhaseChain phase fs) : fs.length ≤ m.size := by
  have hchain : fs.IsChain (TransGen (m.PhaseCalls phase)) :=
    h.calls.imp_of_mem_imp fun a b ha hb hab => .single ⟨h.ofPhase a ha, h.ofPhase b hb, hab⟩
  have hnodup : fs.Nodup := by
    refine hchain.pairwise.imp fun {a b} hab => ?_
    rintro rfl
    exact hacyclic a hab
  have hsub : fs ⊆ m.functionIds := fun f hf =>
    hwf.mem_functionIds.2 (contains_of_hasBody (h.ofPhase f hf).1)
  have hle := (List.subperm_of_subset hnodup hsub).length_le
  rwa [functionIds, List.length_map] at hle

theorem length_le_depth (h : m.PhaseChain phase (f :: fs)) :
    (f :: fs).length ≤ m.depth phase f := by
  refine le_csSup ⟨m.size, ?_⟩ ⟨fs, h, rfl⟩
  rintro _ ⟨gs, hgs, rfl⟩
  exact hgs.length_le hwf hacyclic

theorem exists_depth (hf : m.OfPhase phase f) :
    ∃ fs, m.PhaseChain phase (f :: fs) ∧ (f :: fs).length = m.depth phase f := by
  refine Nat.sSup_mem (s := {n | ∃ fs, m.PhaseChain phase (f :: fs) ∧ (f :: fs).length = n})
    ⟨1, [], phaseChain_singleton hf, rfl⟩ ⟨m.size, ?_⟩
  rintro _ ⟨gs, hgs, rfl⟩
  exact hgs.length_le hwf hacyclic

theorem depth_lt (hfg : m.PhaseCalls phase f g) : m.depth phase g < m.depth phase f := by
  obtain ⟨fs, hfs, hlength⟩ := exists_depth hwf hacyclic hfg.2.1
  have hle := length_le_depth hwf hacyclic (hfs.cons hfg)
  rw [List.length_cons, hlength] at hle
  exact hle

theorem depth_lt_of_transGen (hfg : TransGen (m.PhaseCalls phase) f g) :
    m.depth phase g < m.depth phase f := by
  induction hfg with
  | single hfg => exact depth_lt hwf hacyclic hfg
  | tail _ hgk ih => exact (depth_lt hwf hacyclic hgk).trans ih

theorem exists_longest :
    ∃ L, IsGreatest {n | ∃ fs, m.PhaseChain phase fs ∧ fs.length = n} L := by
  have hbounded : BddAbove {n | ∃ fs, m.PhaseChain phase fs ∧ fs.length = n} := by
    refine ⟨m.size, ?_⟩
    rintro _ ⟨fs, hfs, rfl⟩
    exact hfs.length_le hwf hacyclic
  exact ⟨_, Nat.sSup_mem ⟨0, [], phaseChain_nil, rfl⟩ hbounded, fun _ hn => le_csSup hbounded hn⟩

end Acyclic

end Module

section Scans

variable {phase : Nat} {m₀ m : Module}

/-- What a function of the phase calls after inlining, it reached before without leaving the
phase. -/
theorem Inlined.phaseCalls (h : Inlined phase m₀ m) {f g : FunctionId} (hfg : m.Calls f g)
    (hf : m₀.OfPhase phase f) (hg : m₀.OfPhase phase g) :
    TransGen (m₀.PhaseCalls phase) f g := by
  obtain ⟨-, x, hx⟩ := hfg
  obtain ⟨c, hc, hcg⟩ := (h.expands f).origin (Body.mem_draft.2 ⟨x, hx⟩)
  have hwithin : m₀.OfPhase phase c ∧ ReflTransGen (m₀.PhaseCalls phase) c g := by
    clear hc
    induction hcg using ReflTransGen.head_induction_on with
    | refl => exact ⟨hg, .refl⟩
    | head hab _ ih =>
      obtain ⟨ha, hb⟩ := hab
      obtain ⟨y, hy⟩ := Body.mem_draft.1 (List.mem_of_mem_filter hb)
      exact ⟨ha.ofPhase, ih.2.head ⟨ha.ofPhase, ih.1, ih.1.1, y, hy⟩⟩
  obtain ⟨y, hy⟩ := Body.mem_draft.1 hc
  exact TransGen.head' ⟨hf, hwithin.1, hwithin.1.1, y, hy⟩ hwithin.2

theorem descends_depth (hwf : m₀.WellFormed)
    (hacyclic : ∀ f, ¬ TransGen (m₀.PhaseCalls phase) f f) :
    Descends phase m₀ (m₀.depth phase) := by
  refine ⟨fun {f} hf => ?_, fun {m x y z} hm _ _ _ hyz hy hz => ?_⟩
  · exact Nat.lt_of_lt_of_le (Nat.succ_pos _) (Module.length_le_depth hwf hacyclic
      (Module.phaseChain_singleton hf.1.ofPhase))
  · exact Module.depth_lt_of_transGen hwf hacyclic
      (hm.phaseCalls hyz hy.1.ofPhase hz.1.ofPhase)

end Scans

/-- Where the calls between functions of the phase form no cycle and every tag can be read, scanning
more often than the longest chain of these calls has functions comes to an end. -/
theorem rescan_within_depth {phase : Nat} {r : Run Module} (hwf : r.target.WellFormed)
    (hlegible : r.target.Legible)
    (hacyclic : ∀ f, ¬ TransGen (r.target.PhaseCalls phase) f f) :
    ∃ L, IsGreatest {n | ∃ fs, r.target.PhaseChain phase fs ∧ fs.length = n} L
      ∧ ∀ cap, L < cap → ∃ r' report, rescan phase cap r = .ok (r', report) := by
  obtain ⟨L, hL⟩ := Module.exists_longest hwf hacyclic
  refine ⟨L, hL, fun cap hcap => ?_⟩
  refine (rescan_ends hcap hwf (descends_depth hwf hacyclic) fun f hf => ?_).resolve_right ?_
  · obtain ⟨fs, hfs, hlength⟩ := Module.exists_depth hwf hacyclic hf.1.ofPhase
    exact hL.2 ⟨_, hfs, hlength⟩
  · rintro ⟨halt, -, f, -, hfault⟩
    obtain ⟨p, hp⟩ := hlegible f
    exact nomatch (isMarked_eq_error.1 hfault).symm.trans hp

/-- A cycle of four functions. The two in the middle are of phase 1, and one calls the other. -/
def Module.winding : Module :=
  (build "winding" [
    ({ name := "outer" }, some [.call () (.direct ⟨1⟩), .ret]),
    (({ name := "first" } : Function).withPhase 1, some [.call () (.direct ⟨2⟩), .ret]),
    (({ name := "second" } : Function).withPhase 1, some [.call () (.direct ⟨3⟩), .ret]),
    ({ name := "inner" }, some [.call () (.direct ⟨0⟩), .ret])]).2

theorem Module.winding_phaseCalls {f g : FunctionId} (h : winding.PhaseCalls 1 f g) :
    f = ⟨1⟩ ∧ g = ⟨2⟩ := by
  have hmarked : ∀ f ∈ winding.functionIds, (isMarked 1 winding f).toOption = some true →
      ∀ g ∈ Body.callees (winding.instrsOf f), (isMarked 1 winding g).toOption = some true →
        f = ⟨1⟩ ∧ g = ⟨2⟩ := by decide +kernel
  obtain ⟨hf, hg, hfg⟩ := h
  exact hmarked f ((WellFormed.build _ _).mem_functionIds.2 (contains_of_hasBody hf.1))
    (toOption_eq_some.2 hf.2) g (calls_iff_mem_callees.1 hfg).2 (toOption_eq_some.2 hg.2)

/-- All four lie on a cycle, but no cycle stays within the phase. The longest chain there has two
functions, so three scans are enough, and two are not. -/
theorem rescan_within_depth_winding : (∃ f, TransGen Module.winding.Calls f f)
    ∧ IsGreatest {n | ∃ fs, Module.winding.PhaseChain 1 fs ∧ fs.length = n} 2
    ∧ (rescan 1 2 { target := Module.winding }).toOption.isNone
    ∧ ∃ r' report, rescan 1 3 { target := Module.winding } = .ok (r', report) := by
  have hwf : Module.winding.WellFormed := .build _ _
  have hlegible : Module.winding.Legible := .of_findSome? (o := {}) hwf (by decide +kernel)
  have hacyclic : ∀ f, ¬ TransGen (Module.winding.PhaseCalls 1) f f := by
    intro f hf
    obtain ⟨g, hfg, -⟩ := TransGen.head'_iff.1 hf
    obtain ⟨k, -, hkf⟩ := TransGen.tail'_iff.1 hf
    cases (Module.winding_phaseCalls hfg).1.symm.trans (Module.winding_phaseCalls hkf).2
  have h01 : Module.winding.Calls ⟨0⟩ ⟨1⟩ := Module.calls_iff_mem_callees.2 (by decide +kernel)
  have h12 : Module.winding.Calls ⟨1⟩ ⟨2⟩ := Module.calls_iff_mem_callees.2 (by decide +kernel)
  have h23 : Module.winding.Calls ⟨2⟩ ⟨3⟩ := Module.calls_iff_mem_callees.2 (by decide +kernel)
  have h30 : Module.winding.Calls ⟨3⟩ ⟨0⟩ := Module.calls_iff_mem_callees.2 (by decide +kernel)
  have hchain : Module.winding.PhaseChain 1 [⟨1⟩, ⟨2⟩] := by
    have hmarked : ∀ f ∈ [(⟨1⟩ : FunctionId), ⟨2⟩],
        Module.winding.hasBody f ∧ (isMarked 1 Module.winding f).toOption = some true := by
      decide +kernel
    exact ⟨fun f hf => ⟨(hmarked f hf).1, toOption_eq_some.1 (hmarked f hf).2⟩,
      .cons_cons h12 (.singleton _)⟩
  obtain ⟨L, hL, hends⟩ :=
    @rescan_within_depth 1 { target := Module.winding } hwf hlegible hacyclic
  have hlt : L < 3 := by
    obtain ⟨fs, hfs, rfl⟩ := hL.1
    rcases fs with _ | ⟨a, _ | ⟨b, _ | ⟨c, fs⟩⟩⟩
    · simp
    · simp
    · simp
    · have hab : Module.winding.PhaseCalls 1 a b :=
        ⟨hfs.ofPhase a (by simp), hfs.ofPhase b (by simp), hfs.calls.rel⟩
      have hbc : Module.winding.PhaseCalls 1 b c :=
        ⟨hfs.ofPhase b (by simp), hfs.ofPhase c (by simp), hfs.calls.tail.rel⟩
      cases (Module.winding_phaseCalls hbc).1.symm.trans (Module.winding_phaseCalls hab).2
  obtain rfl : L = 2 := by
    have hle : 2 ≤ L := hL.2 ⟨_, hchain, rfl⟩
    omega
  exact ⟨⟨⟨0⟩, .head h01 (.head h12 (.head h23 (.single h30)))⟩, hL, by decide +kernel,
    hends 3 hlt⟩

end PhasedInlining
