import PhasedInlining.Proofs.CallGraph.Search

/-!
# Call cycles are found exactly

The search among the functions of a list goes along the calls within the list, so the components
that it finds are the classes of mutual reachability by such calls (`components?_callsAmong`). Those
with several members, or with one that calls itself, are the cycles (`cycles?_spec`).
-/

namespace PhasedInlining

open Relation (ReflTransGen)

namespace Snapshot

/-- A call between two functions of a list. -/
def CallsWithin (s : Snapshot) (fs : List FunctionId) (f g : FunctionId) : Prop :=
  f ∈ fs ∧ g ∈ fs ∧ s.Calls f g

/-- `c` is a class of mutual reachability among the functions of a list, by their handles. -/
def IsComponent (s : Snapshot) (fs c : List FunctionId) : Prop :=
  c.Pairwise (· < ·) ∧ ∃ f ∈ fs, ∀ g, g ∈ c
    ↔ ReflTransGen (s.CallsWithin fs) f g ∧ ReflTransGen (s.CallsWithin fs) g f

/-- A component that is a cycle: several functions, or one that calls itself. -/
def IsCyclic (s : Snapshot) (c : List FunctionId) : Prop :=
  2 ≤ c.length ∨ ∃ f, c = [f] ∧ s.Calls f f

section Components

variable {s : Snapshot} {fs c : List FunctionId} {f : FunctionId}

theorem IsComponent.ne_nil (hc : s.IsComponent fs c) : c ≠ [] := by
  obtain ⟨-, f, -, hmem⟩ := hc
  exact List.ne_nil_of_mem ((hmem f).2 ⟨.refl, .refl⟩)

/-- A function lies in one component only. -/
theorem IsComponent.unique {c' : List FunctionId} (hc : s.IsComponent fs c)
    (hc' : s.IsComponent fs c') (hf : f ∈ c) (hf' : f ∈ c') : c = c' := by
  obtain ⟨hsorted, k, -, hmem⟩ := hc
  obtain ⟨hsorted', k', -, hmem'⟩ := hc'
  have hk := (hmem f).1 hf
  have hk' := (hmem' f).1 hf'
  refine FunctionId.eq_of_mem_iff hsorted hsorted' fun g => ?_
  rw [hmem, hmem']
  constructor
  · exact fun hg => ⟨hk'.1.trans (hk.2.trans hg.1), hg.2.trans (hk.1.trans hk'.2)⟩
  · exact fun hg => ⟨hk.1.trans (hk'.2.trans hg.1), hg.2.trans (hk'.1.trans hk.2)⟩

end Components

section Search

variable (s : Snapshot) (fs : List FunctionId)

theorem mem_toList_ofList {f : FunctionId} : f ∈ (Std.TreeSet.ofList fs).toList ↔ f ∈ fs := by
  rw [Std.TreeSet.mem_toList, Std.TreeSet.mem_ofList, List.contains_iff_mem]

theorem pairwise_toList_ofList : (Std.TreeSet.ofList fs).toList.Pairwise (· < ·) := by
  have hsorted := Std.TreeSet.ordered_toList (t := Std.TreeSet.ofList fs)
  exact hsorted.imp fun hlt => Nat.compare_eq_lt.1 hlt

theorem nodup_toList_ofList : (Std.TreeSet.ofList fs).toList.Nodup := by
  refine (pairwise_toList_ofList fs).imp fun {f g} hlt heq => ?_
  subst heq
  exact Nat.lt_irrefl _ hlt

theorem perm_toList_ofList {c : List FunctionId} (hc : c.Nodup) :
    (Std.TreeSet.ofList c).toList.Perm c :=
  (List.perm_ext_iff_of_nodup (nodup_toList_ofList c) hc).2 fun _ => mem_toList_ofList c

/-- The search goes along the calls within the list. -/
theorem mem_callsAmong {f g : FunctionId} :
    g ∈ (s.callsAmong (.ofList fs)).getD f [] ↔ s.CallsWithin fs f g := by
  rw [Std.TreeMap.getD_eq_getD_getElem?, callsAmong, getElem?_foldl_insert]
  simp only [mem_toList_ofList]
  split_ifs with hf
  · simp [CallsWithin, hf, Calls, and_comm]
  · simp [CallsWithin, hf]

/-- The functions of the list fall into components, callees first. -/
theorem components?_callsAmong :
    let succ := fun f => (s.callsAmong (.ofList fs)).getD f []
    ∃ cs, Search.components? succ (Std.TreeSet.ofList fs).toList = some cs
      ∧ (∀ c ∈ cs, c.Nodup ∧ s.IsComponent fs (Std.TreeSet.ofList c).toList)
      ∧ (∀ f ∈ fs, ∃ c ∈ cs, f ∈ c)
      ∧ cs.Pairwise fun c c' => ∀ f ∈ c, ∀ g ∈ c', ¬ ReflTransGen (s.CallsWithin fs) f g := by
  intro succ
  have hsucc : (fun f g => g ∈ succ f) = s.CallsWithin fs := by
    funext f g
    exact propext (s.mem_callsAmong fs)
  have hin : ∀ f ∈ (Std.TreeSet.ofList fs).toList, ∀ g ∈ succ f,
      g ∈ (Std.TreeSet.ofList fs).toList := fun f _ g hg =>
    (mem_toList_ofList fs).2 ((s.mem_callsAmong fs).1 hg).2.1
  obtain ⟨cs, heq, hcs, hall, horder⟩ := Search.components?_spec (nodup_toList_ofList fs) hin
  rw [hsucc] at hcs horder
  refine ⟨cs, heq, fun c hc => ?_, fun f hf => hall f ((mem_toList_ofList fs).2 hf), horder⟩
  obtain ⟨hnodup, f, -, hf, hmem⟩ := hcs c hc
  refine ⟨hnodup, pairwise_toList_ofList c, f, (mem_toList_ofList fs).1 hf, fun g => ?_⟩
  rw [mem_toList_ofList, hmem]

variable {s fs}

theorem isCycle_iff {c : List FunctionId} (hnodup : c.Nodup)
    (hc : s.IsComponent fs (Std.TreeSet.ofList c).toList) :
    isCycle (fun f => (s.callsAmong (.ofList fs)).getD f []) c
      ↔ s.IsCyclic (Std.TreeSet.ofList c).toList := by
  have hperm := perm_toList_ofList hnodup
  rcases c with _ | ⟨f, _ | ⟨g, c⟩⟩
  · exact absurd (List.perm_nil.1 hperm) hc.ne_nil
  · rw [List.perm_singleton.1 hperm] at hc ⊢
    obtain ⟨-, k, hk, hmem⟩ := hc
    have hkf : k = f := List.mem_singleton.1 ((hmem k).2 ⟨.refl, .refl⟩)
    subst hkf
    simp [isCycle, IsCyclic, s.mem_callsAmong fs, CallsWithin, hk]
  · simp [isCycle, IsCyclic, hperm.length_eq]

variable (s fs)

/-- The cycles are found, callees first. -/
theorem cycles?_spec : ∃ cs, s.cycles? fs = some cs
    ∧ (∀ c, c ∈ cs ↔ s.IsComponent fs c ∧ s.IsCyclic c)
    ∧ cs.Pairwise fun c c' => ∀ f ∈ c, ∀ g ∈ c', ¬ ReflTransGen (s.CallsWithin fs) f g := by
  obtain ⟨cs, heq, hcs, hall, horder⟩ := s.components?_callsAmong fs
  have hne : cs.any List.isEmpty = false := by
    refine List.any_eq_false.2 fun c hc hempty => (hcs c hc).2.ne_nil ?_
    rw [List.isEmpty_iff.1 hempty]
    rfl
  refine ⟨_, by simp only [cycles?, heq, hne, Option.bind_some]; rfl, fun c => ?_, ?_⟩
  · simp only [List.mem_map, List.mem_filter]
    constructor
    · rintro ⟨c, ⟨hc, hcycle⟩, rfl⟩
      obtain ⟨hnodup, hcomponent⟩ := hcs c hc
      exact ⟨hcomponent, (isCycle_iff hnodup hcomponent).1 hcycle⟩
    · rintro ⟨hcomponent, hcyclic⟩
      obtain ⟨-, f, hf, hmem⟩ := id hcomponent
      obtain ⟨c', hc', hfc'⟩ := hall f hf
      obtain ⟨hnodup, hcomponent'⟩ := hcs c' hc'
      obtain rfl := hcomponent.unique hcomponent' ((hmem f).2 ⟨.refl, .refl⟩)
        ((mem_toList_ofList c').2 hfc')
      exact ⟨c', ⟨hc', (isCycle_iff hnodup hcomponent').2 hcyclic⟩, rfl⟩
  · refine List.pairwise_map.2 ((horder.filter _).imp fun hno f hf g hg => ?_)
    exact hno f ((mem_toList_ofList _).1 hf) g ((mem_toList_ofList _).1 hg)

theorem mem_cycles_iff {c : List FunctionId} :
    c ∈ s.cycles fs ↔ s.IsComponent fs c ∧ s.IsCyclic c := by
  obtain ⟨cs, heq, hmem, -⟩ := s.cycles?_spec fs
  rw [cycles, heq, Option.getD_some, hmem]

end Search

/-- The search for the call cycles among the functions of a list comes to its end and looks nothing
up in vain. The cycles are the classes of mutual reachability that have several members or one that
calls itself. Each is found once, by handles, and none before another that it leads to. -/
theorem cycles_exact (s : Snapshot) (fs : List FunctionId) :
    s.cycles? fs = some (s.cycles fs)
      ∧ (∀ c, c ∈ s.cycles fs ↔ s.IsComponent fs c ∧ s.IsCyclic c)
      ∧ (s.cycles fs).Nodup
      ∧ (s.cycles fs).Pairwise fun c c' =>
        ∀ f ∈ c, ∀ g ∈ c', ¬ ReflTransGen (s.CallsWithin fs) f g := by
  obtain ⟨cs, heq, -, horder⟩ := s.cycles?_spec fs
  have hcycles : s.cycles fs = cs := by rw [cycles, heq, Option.getD_some]
  rw [← hcycles] at heq horder
  refine ⟨heq, fun c => s.mem_cycles_iff fs, ?_, horder⟩
  refine horder.imp_of_mem fun {c c'} hc _ hno hsame => ?_
  obtain ⟨f, hf⟩ := List.exists_mem_of_ne_nil c ((s.mem_cycles_iff fs).1 hc).1.ne_nil
  exact hno f hf f (hsame ▸ hf) .refl

end Snapshot

end PhasedInlining
