import PhasedInlining.Lowering.CallCounts
import PhasedInlining.Proofs.CallGraph.Snapshot
import PhasedInlining.Proofs.Lowering.Sweep

/-!
# Counts of calls follow the splices

The counts that a scan starts with are those of the module's bodies (`exact_ofEdges`), and a splice
changes both in the same way (`Exact.splice`). So at every moment of a scan the counts tell who
calls whom directly (`Exact.contains_iff`).
-/

namespace PhasedInlining

namespace CallCounts

open Sweep (Counted)

section Tables

variable {own : Std.TreeMap FunctionId Nat} {c c' : FunctionId → Nat} {f : FunctionId}

theorem counted_addTo (h : Counted own c) (f : FunctionId) {n : Nat} (hn : 0 < n) :
    Counted (addTo own f n) fun g => c g + if f = g then n else 0 := by
  intro g
  have hget : own.getD f 0 = c f := by
    rw [Std.TreeMap.getD_eq_getD_getElem?, h f]
    split_ifs with hf <;> simp [hf]
  rw [addTo, Std.TreeMap.getElem?_insert, hget, h g]
  simp only [Std.LawfulEqCmp.compare_eq_iff_eq]
  by_cases hfg : f = g
  · subst hfg
    rw [if_pos rfl, if_pos rfl, if_neg (by omega)]
  · simp [hfg]

theorem counted_foldl_addTo : ∀ (l : List (FunctionId × Nat)) {own : Std.TreeMap FunctionId Nat}
    {c : FunctionId → Nat}, (∀ f n, (f, n) ∈ l → 0 < n ∧ c' f = n) → (l.map (·.1)).Nodup →
    Counted own c → Counted (l.foldl (fun own (f, n) => addTo own f n) own)
      fun g => c g + if g ∈ l.map (·.1) then c' g else 0
  | [], _, _, _, _, h => by simpa using h
  | (f, n) :: l, own, c, hl, hnodup, h => by
    obtain ⟨hn, hf⟩ := hl f n List.mem_cons_self
    rw [List.map_cons, List.nodup_cons] at hnodup
    refine (counted_foldl_addTo l (fun k n hk => hl k n (List.mem_cons_of_mem _ hk)) hnodup.2
      (counted_addTo h f hn)).congr fun g => ?_
    by_cases hfg : f = g
    · subst hfg
      simp only [if_true, if_neg hnodup.1, List.map_cons, List.mem_cons, true_or, hf, Nat.add_zero]
    · simp only [hfg, if_false, Nat.add_zero, List.map_cons, List.mem_cons, Ne.symm hfg, false_or]

theorem counted_foldl_toList {other : Std.TreeMap FunctionId Nat} (h : Counted own c)
    (h' : Counted other c') :
    Counted (other.toList.foldl (fun own (f, n) => addTo own f n) own) fun g => c g + c' g := by
  have hentry : ∀ f n, (f, n) ∈ other.toList → 0 < n ∧ c' f = n := by
    intro f n he
    rw [Std.TreeMap.mem_toList_iff_getElem?_eq_some, h' f] at he
    split_ifs at he with h0
    rw [Option.some.injEq] at he
    omega
  have hmem : ∀ g, g ∈ other.toList.map (·.1) ↔ c' g ≠ 0 := by
    intro g
    rw [Std.TreeMap.map_fst_toList_eq_keys, Std.TreeMap.mem_keys,
      Std.TreeMap.mem_iff_isSome_getElem?, h' g]
    split_ifs with h0 <;> simp [h0]
  refine (counted_foldl_addTo _ hentry ?_ h).congr fun g => ?_
  · rw [Std.TreeMap.map_fst_toList_eq_keys]
    exact Std.TreeMap.nodup_keys
  · simp only [hmem]
    split_ifs <;> omega

theorem counted_dropFrom (h : Counted own c) (hf : 0 < c f) :
    Counted (dropFrom own f) fun g => c g - if f = g then 1 else 0 := by
  have hget : own[f]? = some (c f) := by rw [h f, if_neg (by omega)]
  intro g
  simp only [dropFrom, hget]
  by_cases hfg : f = g
  · subst hfg
    by_cases h1 : c f ≤ 1
    · simp [h1]
    · rw [if_neg h1, Std.TreeMap.getElem?_insert_self, if_pos rfl, if_neg (by omega)]
  · by_cases h1 : c f ≤ 1
    · simp [h1, hfg, Std.TreeMap.getElem?_erase, h g]
    · simp [h1, hfg, Std.TreeMap.getElem?_insert, h g]

end Tables

/-- The counts are those of the direct calls in the bodies of `m`. -/
def Exact (c : CallCounts) (m : Module) : Prop :=
  ∀ f, Counted (c.ofCaller f) (Body.callees (m.instrsOf f)).count

variable {c : CallCounts} {m m' : Module} {f g : FunctionId}

theorem Exact.count_eq (h : c.Exact m) :
    c.count f g = (Body.callees (m.instrsOf f)).count g := by
  rw [count, Std.TreeMap.getD_eq_getD_getElem?, h f g]
  split_ifs with h0 <;> simp [h0]

theorem Exact.contains_iff (h : c.Exact m) :
    c.contains f g ↔ ∃ x, .call x (.direct g) ∈ m.instrsOf f := by
  rw [← Body.mem_callees, contains, Std.TreeMap.contains_eq_isSome_getElem?, h f g,
    ← List.count_pos_iff]
  split_ifs with h0
  · simp [h0]
  · simp [Nat.pos_of_ne_zero h0]

theorem ofCaller_insert (c : CallCounts) (f : FunctionId) (own : Std.TreeMap FunctionId Nat)
    (k : FunctionId) :
    (CallCounts.mk (c.counts.insert f own)).ofCaller k = if f = k then own else c.ofCaller k := by
  simp only [ofCaller, Std.TreeMap.getD_insert, Std.LawfulEqCmp.compare_eq_iff_eq]

section OfEdges

/-- How many of the calls go from `f` to `g`. -/
def edgeCount (es : List CallEdge) (f g : FunctionId) : Nat :=
  es.countP fun e => e.caller = f ∧ e.target = .direct g

theorem counted_foldl_addEdge : ∀ (es : List CallEdge) {c : CallCounts}
    {n : FunctionId → FunctionId → Nat}, (∀ f, Counted (c.ofCaller f) (n f)) →
    ∀ f, Counted ((es.foldl addEdge c).ofCaller f) fun g => n f g + edgeCount es f g
  | [], _, _, h, f => by simpa [edgeCount] using h f
  | e :: es, c, n, h, f => by
    have hstep : ∀ f, Counted ((c.addEdge e).ofCaller f) fun g => n f g + edgeCount [e] f g := by
      intro f
      unfold addEdge edgeCount
      rcases ht : e.target with callee | _
      · rw [ofCaller_insert]
        split_ifs with hf
        · subst hf
          refine (counted_addTo (h e.caller) callee Nat.one_pos).congr fun g => ?_
          simp [ht]
        · simpa [hf] using h f
      · simpa [ht] using h f
    refine (counted_foldl_addEdge es hstep f).congr fun g => ?_
    have hsplit : edgeCount ([e] ++ es) f g = edgeCount [e] f g + edgeCount es f g :=
      List.countP_append
    rw [List.singleton_append] at hsplit
    omega

theorem edgeCount_callEdges (h : m.WellFormed) (f g : FunctionId) :
    edgeCount m.callEdges f g = (Body.callees (m.instrsOf f)).count g := by
  have hperm : ((m.callEdges.filter fun e => e.caller = f ∧ e.target = .direct g).map
      (·.site)).Perm (Body.sites ((m.instrsOf f).filter (·.callee? = some g))) := by
    refine (List.perm_ext_iff_of_nodup ?_ ?_).2 fun x => ?_
    · exact h.sites_callEdges_nodup.sublist (List.filter_sublist.map _)
    · exact (h.sites_nodup f).sublist (List.filter_sublist.filterMap _)
    · simp only [List.mem_map, List.mem_filter, decide_eq_true_eq, Body.mem_sites]
      constructor
      · rintro ⟨⟨_, _, x⟩, ⟨he, rfl, rfl⟩, rfl⟩
        exact ⟨_, h.mem_callEdges.1 he, rfl⟩
      · rintro ⟨t, ht, hg⟩
        obtain ⟨_, heq⟩ := Instr.callee?_eq_some.1 hg
        cases heq
        exact ⟨⟨f, _, x⟩, ⟨h.mem_callEdges.2 ht, rfl, rfl⟩, rfl⟩
  have hlength := hperm.length_eq
  rw [List.length_map, ← List.countP_eq_length_filter] at hlength
  rw [edgeCount, hlength, Body.sites, Body.callees, List.length_filterMap_eq_countP,
    List.countP_filter, List.count_filterMap]
  refine List.countP_congr fun i _ => ?_
  rcases i with _ | ⟨_, _ | _⟩ | _ | _ <;>
    simp [Instr.site?, Instr.callee?, CallTarget.callee?]

theorem exact_ofEdges (h : m.WellFormed) : (ofEdges m.callEdges).Exact m := by
  intro f
  refine (counted_foldl_addEdge m.callEdges (n := fun _ _ => 0) (fun f g => ?_) f).congr fun g => ?_
  · simp [ofCaller]
  · rw [Nat.zero_add, edgeCount_callEdges h]

end OfEdges

theorem Exact.splice (h : c.Exact m) {s : CallSiteId} {caller callee : FunctionId} {k : Function}
    (hs : m.Splices s m' caller callee k) : (c.splice caller callee).Exact m' := by
  intro f
  rw [CallCounts.splice, ofCaller_insert]
  split_ifs with hf
  · subst hf
    obtain ⟨pre, post, hbody, -, hbody'⟩ := hs.body
    have hown : ∀ g, (Body.callees (m.instrsOf caller)).count g = (Body.callees pre).count g
        + (if callee = g then 1 else 0) + (Body.callees post).count g := by
      intro g
      rw [hbody, Body.callees_append, Body.callees_call_cons, List.count_append, List.count_cons]
      simp only [beq_iff_eq]
      omega
    have hcallee : 0 < (Body.callees (m.instrsOf caller)).count callee := by
      rw [hown, if_pos rfl]
      omega
    refine (counted_foldl_toList (counted_dropFrom (h caller) hcallee) (h callee)).congr fun g => ?_
    rw [hown, hbody', Module.instrsOf_of_function? hs.callee_eq]
    simp only [Body.callees_append, Body.callees_issue, Body.callees_withoutReturns,
      List.count_append]
    split_ifs <;> omega
  · rw [hs.instrsOf_other (Ne.symm hf)]
    exact h f

end CallCounts

end PhasedInlining
