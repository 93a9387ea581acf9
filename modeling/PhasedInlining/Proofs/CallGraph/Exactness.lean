import Mathlib.Data.Set.Finite.Basic
import Mathlib.Order.WellFounded
import PhasedInlining.Proofs.CallGraph.Drain

/-!
# What is never handed out

The functions that draining leaves unresolved each call another one of them, and there are finitely
many, so from each a call cycle can be reached. Nothing from which one can be reached is ever ready.
Hence `unresolved` is exactly the set of functions that reach a cycle (`mem_unresolved_iff`), and
the rest is handed out, each function once (`drains_drain`, `processed_add_unresolved`). Of a
module these are the functions that reach a cycle of its calls (`Module.WellFormed.mem_unresolved`).
-/

namespace PhasedInlining

open Relation (ReflTransGen TransGen)

section ReachesCycle

variable {α : Type} {r : α → α → Prop} {a b : α}

/-- From `a` a cycle of the relation can be reached. -/
def ReachesCycle (r : α → α → Prop) (a : α) : Prop := ∃ b, ReflTransGen r a b ∧ TransGen r b b

theorem ReachesCycle.next (h : ReachesCycle r a) : ∃ b, r a b ∧ ReachesCycle r b := by
  obtain ⟨c, hac, hc⟩ := h
  rcases hac.cases_head with rfl | ⟨b, hab, hbc⟩
  · obtain ⟨b, hab, hba⟩ := TransGen.head'_iff.1 hc
    exact ⟨b, hab, a, hba, hc⟩
  · exact ⟨b, hab, c, hbc, hc⟩

/-- Finitely many elements, each related to another of them, cannot do without a cycle, or one of
those that are reached would be the last. -/
theorem reachesCycle_of_mem {U : List α} (hU : ∀ a ∈ U, ∃ b ∈ U, r a b) (ha : a ∈ U) :
    ReachesCycle r a := by
  by_contra hno
  let T := {b : α // b ∈ U ∧ ReflTransGen r a b}
  have hfinite : Finite T := Set.Finite.subset U.finite_toSet fun _ hb => hb.1
  let later : T → T → Prop := fun x y => TransGen r y.1 x.1
  have : IsTrans T later := ⟨fun _ _ _ hxy hyz => hyz.trans hxy⟩
  have : Std.Irrefl later := ⟨fun x hx => hno ⟨x.1, x.2.2, hx⟩⟩
  obtain ⟨last, -, hlast⟩ := (Finite.wellFounded_of_trans_of_irrefl later).has_min Set.univ
    ⟨⟨a, ha, .refl⟩, trivial⟩
  obtain ⟨b, hb, hr⟩ := hU last.1 last.2.1
  exact hlast ⟨b, hb, last.2.2.tail hr⟩ trivial (.single hr)

end ReachesCycle

namespace Worklist

/-- Draining `w` hands out `fs`, one after the other, and ends at `w'` with nothing ready. -/
inductive Drains (s : Snapshot) : Worklist → List FunctionId → Worklist → Prop
  | done {w : Worklist} (h : w.next? = none) : Drains s w [] w
  | step {w w₁ w₂ : Worklist} {f : FunctionId} {fs : List FunctionId}
    (h : w.next? = some (f, w₁)) (hrest : Drains s (w₁.release s f) fs w₂) :
    Drains s w (f :: fs) w₂

variable {s : Snapshot} {es : List CallEdge}

theorem drains_drainFrom (hs : s.Records es) : ∀ (fuel : Nat) {w : Worklist}, Progress s es w →
    s.functionCount ≤ w.processed + fuel →
    ∃ fs, Drains s w fs (drainFrom s fuel w) ∧ (drainFrom s fuel w).handedOut = w.handedOut ++ fs
  | 0, w, h, hfuel => by
    have hsize := h.size_le
    have hnext : w.next? = none := by
      simp only [next?, Option.map_eq_none_iff, Array.getElem?_eq_none_iff]
      omega
    exact ⟨[], .done hnext, (List.append_nil _).symm⟩
  | fuel + 1, w, h, hfuel => by
    unfold drainFrom
    rcases hn : w.next? with _ | ⟨f, w₁⟩
    · exact ⟨[], .done hn, (List.append_nil _).symm⟩
    · obtain ⟨-, -, hprocessed, -, -, -⟩ := handedOut_next h.nodup hn
      have hle : s.functionCount ≤ (w₁.release s f).processed + fuel := by
        rw [(resolves_release w₁ s f).processed]
        omega
      obtain ⟨fs, hfs, hdone⟩ := drains_drainFrom hs fuel (h.release hs hn) hle
      refine ⟨f :: fs, .step hn hfs, ?_⟩
      rw [hdone, handedOut_release h hn, List.append_assoc]
      rfl

theorem unresolved_pairwise (w : Worklist) : w.unresolved.Pairwise (· < ·) := by
  refine List.pairwise_map.2 ((Std.TreeMap.ordered_keys_toList.filter _).imp fun h => ?_)
  exact Nat.compare_eq_lt.1 h

end Worklist

namespace Snapshot

open Worklist

variable {s : Snapshot} {es : List CallEdge} (h : s.Records es) {f : FunctionId}
include h

/-- Draining comes to an end, and hands out what is ready then in the order in which it became
so. -/
theorem drains_drain : (seed s).Drains s s.drain.ready.toList s.drain := by
  obtain ⟨fs, hfs, hdone⟩ := drains_drainFrom h s.functionCount (progress_seed h) (by simp [seed])
  obtain ⟨-, hend⟩ := progress_drain h
  have hready : s.drain.ready.toList = fs := by
    calc s.drain.ready.toList = s.drain.handedOut := by
          rw [handedOut, hend]
          exact List.take_length.symm
      _ = (seed s).handedOut ++ fs := hdone
      _ = fs := rfl
  rw [hready]
  exact hfs

/-- A function is handed out after all that it calls. -/
theorem callee_handed_out {pre post : List FunctionId}
    (hsplit : s.drain.ready.toList = pre ++ f :: post) {c : FunctionId} (hc : s.Calls f c) :
    c ∈ pre := by
  obtain ⟨e, he, hcaller, ht⟩ := (h.calls f c).1 hc
  have hmem := (progress_drain h).1.calleesFirst pre f post hsplit e he hcaller
  rw [ht] at hmem
  simpa using hmem

/-- What is never resolved is what reaches a call cycle. -/
theorem mem_unresolved_iff :
    f ∈ s.drain.unresolved ↔ s.contains f ∧ ReachesCycle s.Calls f := by
  constructor
  · intro hf
    refine ⟨(contains_iff_drained h).2 (.inr hf), reachesCycle_of_mem (fun g hg => ?_) hf⟩
    obtain ⟨e, he, hcaller, c, hc, ht⟩ := calls_unresolved h hg
    exact ⟨c, hc, (h.calls g c).2 ⟨e, he, hcaller, ht⟩⟩
  · rintro ⟨hcontains, hcycle⟩
    refine ((contains_iff_drained h).1 hcontains).resolve_left ?_
    refine not_mem_ready h (U := ReachesCycle s.Calls) (fun g hg => ?_) hcycle
    obtain ⟨c, hgc, hc⟩ := hg.next
    obtain ⟨e, he, hcaller, ht⟩ := (h.calls g c).1 hgc
    exact ⟨e, he, hcaller, c, ht, hc⟩

theorem total_drain : s.drain.total = s.functionCount := by
  refine total_eq fun f => ?_
  rw [(progress_drain h).1.pending, ← Std.TreeMap.contains_eq_isSome_getElem?]
  change _ = s.contains f
  split_ifs with hf <;> simp [hf]

/-- Every function is handed out or left unresolved. -/
theorem processed_add_unresolved :
    s.drain.processed + s.drain.unresolved.length = s.drain.total := by
  obtain ⟨hp, hend⟩ := progress_drain h
  rw [hend]
  exact ready_add_unresolved hp.nodup hp.mem_ready

end Snapshot

namespace Module

/-- Whether `f` calls `g` directly, and `g` has a body. -/
def Calls (m : Module) (f g : FunctionId) : Prop :=
  m.hasBody g ∧ ∃ x, .call x (.direct g) ∈ m.instrsOf f

variable {m : Module}

theorem hasBody_of_calls {f g : FunctionId} (h : TransGen m.Calls f g) :
    m.hasBody f ∧ m.hasBody g := by
  obtain ⟨_, ⟨-, x, hx⟩, -⟩ := TransGen.head'_iff.1 h
  obtain ⟨_, -, hg, -⟩ := TransGen.tail'_iff.1 h
  exact ⟨hasBody_of_mem hx, hg⟩

theorem WellFormed.calls_iff (h : m.WellFormed) {f g : FunctionId} :
    (Snapshot.ofSource m).Calls f g ↔ m.Calls f g := by
  rw [(Snapshot.records_ofSource m).calls]
  constructor
  · rintro ⟨e, he, rfl, ht⟩
    obtain ⟨c, hc, hbody, hx⟩ := h.mem_shown.1 he
    cases ht.symm.trans hc
    exact ⟨hbody, e.site, hx⟩
  · rintro ⟨hbody, x, hx⟩
    exact ⟨⟨f, .direct g, x⟩, h.mem_shown.2 ⟨g, rfl, hbody, hx⟩, rfl, rfl⟩

/-- A snapshot of a module leaves unresolved the functions that reach a call cycle. -/
theorem WellFormed.mem_unresolved (h : m.WellFormed) {f : FunctionId} :
    f ∈ (Snapshot.ofSource m).drain.unresolved ↔ m.hasBody f ∧ ReachesCycle m.Calls f := by
  have hcalls : (Snapshot.ofSource m).Calls = m.Calls := by
    funext f g
    exact propext h.calls_iff
  rw [Snapshot.mem_unresolved_iff (Snapshot.records_ofSource m), Snapshot.contains_ofModule h,
    hcalls]

end Module

end PhasedInlining
