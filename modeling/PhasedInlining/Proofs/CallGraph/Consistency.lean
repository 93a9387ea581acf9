import Mathlib.Data.List.Perm.Basic
import PhasedInlining.Proofs.CallGraph.Snapshot

/-!
# A snapshot agrees with its source and with itself

A snapshot keeps a call in several places: in the count of its caller, among the sites of its two
ends, among the callees of its caller, and in a total. One step writes all of them, or none and
another total (`edgeCount_addEdge`, `skippedCount_addEdge`), so they tell of the same calls.

Which calls these are, `Records` says of the first three. The counts then come from one fact about
sorting: the calls kept, put together by callee or by caller, are the calls kept
(`perm_flatMap_filter`).
-/

namespace PhasedInlining

namespace Snapshot

section Sorting

variable {α κ : Type}

/-- A list sorted by keys has the elements of the list. -/
theorem perm_flatMap_filter [DecidableEq κ] (key : α → κ) : ∀ {ks : List κ} (as : List α),
    ks.Nodup → (∀ a ∈ as, key a ∈ ks) → (ks.flatMap fun k => as.filter (key · = k)).Perm as
  | [], as, _, h => by
    have hnil : as = [] := List.eq_nil_iff_forall_not_mem.2 fun a ha => List.not_mem_nil (h a ha)
    rw [hnil]
    exact .refl _
  | k :: ks, as, hnodup, h => by
    obtain ⟨hk, hks⟩ := List.nodup_cons.1 hnodup
    have hrest : (ks.flatMap fun k' => as.filter (key · = k'))
        = ks.flatMap fun k' => (as.filter fun a => !decide (key a = k)).filter (key · = k') := by
      refine List.flatMap_congr fun k' hk' => ?_
      rw [List.filter_filter]
      refine List.filter_congr fun a _ => ?_
      have hne : k' ≠ k := by
        rintro rfl
        exact hk hk'
      by_cases ha : key a = k' <;> simp [ha, hne]
    have hkeys : ∀ a ∈ as.filter fun a => !decide (key a = k), key a ∈ ks := by
      intro a ha
      obtain ⟨hmem, hne⟩ := List.mem_filter.1 ha
      exact (List.mem_cons.1 (h a hmem)).resolve_left (by simpa using hne)
    have hothers := perm_flatMap_filter key _ hks hkeys
    rw [List.flatMap_cons, hrest]
    exact (hothers.append_left _).trans (List.filter_append_perm (key · = k) as)

end Sorting

section Totals

theorem edgeCount_addEdge (s : Snapshot) (e : CallEdge) :
    (s.addEdge e).edgeCount = s.edgeCount + if s.shows e then 1 else 0 := by
  unfold addEdge shows
  rcases e.target with callee | _
  · simp only []
    split_ifs <;> rfl
  · rfl

theorem skippedCount_addEdge (s : Snapshot) (e : CallEdge) :
    (s.addEdge e).skippedCount = s.skippedCount + if s.shows e then 0 else 1 := by
  unfold addEdge shows
  rcases e.target with callee | _
  · simp only []
    split_ifs <;> rfl
  · rfl

/-- Every call is counted once, as kept or as skipped. -/
theorem totals_foldl_addEdge : ∀ (es : List CallEdge) (s : Snapshot),
    (es.foldl addEdge s).edgeCount = s.edgeCount + (es.filter s.shows).length
      ∧ (es.foldl addEdge s).edgeCount + (es.foldl addEdge s).skippedCount
        = s.edgeCount + s.skippedCount + es.length
  | [], s => by simp
  | e :: es, s => by
    have hsame : (s.addEdge e).shows = s.shows := funext (shows_addEdge s e)
    obtain ⟨hkept, hall⟩ := totals_foldl_addEdge es (s.addEdge e)
    rw [hsame, edgeCount_addEdge] at hkept
    rw [edgeCount_addEdge, skippedCount_addEdge] at hall
    simp only [List.foldl_cons, List.filter_cons, List.length_cons]
    rcases hs : s.shows e with _ | _ <;>
      simp only [hs, Bool.false_eq_true, ↓reduceIte, List.length_cons] at hkept hall ⊢ <;> omega

end Totals

section Listings

theorem functionIds_pairwise (s : Snapshot) : s.functionIds.Pairwise (· < ·) := by
  have hsorted := Std.TreeMap.ordered_keys (t := s.pending)
  exact hsorted.imp fun hlt => Nat.compare_eq_lt.1 hlt

theorem mem_functionIds (s : Snapshot) {f : FunctionId} : f ∈ s.functionIds ↔ s.contains f :=
  Std.TreeMap.mem_keys.trans Std.TreeMap.contains_iff_mem.symm

theorem calleesOf_pairwise (s : Snapshot) (f : FunctionId) :
    (s.calleesOf f).Pairwise (· < ·) := by
  have hsorted := Std.TreeSet.ordered_toList (t := s.callees.getD f ∅)
  exact hsorted.imp fun hlt => Nat.compare_eq_lt.1 hlt

theorem callersOf_pairwise (s : Snapshot) (c : FunctionId) :
    ((s.callersOf c).map (·.1)).Pairwise (· < ·) := by
  have hsorted := Std.TreeMap.ordered_keys_toList (t := s.callers.getD c ∅)
  exact List.pairwise_map.2 (hsorted.imp fun hlt => Nat.compare_eq_lt.1 hlt)

end Listings

section Records

variable {s : Snapshot} {es : List CallEdge} (h : s.Records es) {f : FunctionId}
include h

theorem Records.mem_calleesOf {c : FunctionId} : c ∈ s.calleesOf f ↔ s.sitesBetween c f ≠ [] := by
  have hcalls := h.calls f c
  rw [Calls] at hcalls
  rw [hcalls, h.sites, Ne, List.map_eq_nil_iff, List.filter_eq_nil_iff]
  simp

theorem Records.mem_callersOf {c : FunctionId} {sites : Array CallSiteId} :
    (f, sites) ∈ s.callersOf c ↔ sites.toList = s.sitesBetween c f ∧ s.sitesBetween c f ≠ [] := by
  have hcallers : f ∈ (s.callersOf c).map (·.1) ↔ s.sitesBetween c f ≠ [] := by
    rw [h.callers, h.sites, Ne, List.map_eq_nil_iff, List.filter_eq_nil_iff]
    simp
  rw [← hcallers]
  constructor
  · exact fun hmem => ⟨sites_of_mem_callersOf hmem, List.mem_map_of_mem hmem⟩
  · rintro ⟨hsites, hmem⟩
    obtain ⟨⟨f', sites'⟩, hmem', rfl⟩ := List.mem_map.1 hmem
    have heq : sites = sites' :=
      Array.toList_inj.1 (hsites.trans (sites_of_mem_callersOf hmem').symm)
    rwa [heq]

/-- The calls of a function are those to its callees. -/
theorem Records.pending_eq (hf : s.contains f) : s.pending? f
    = some ((s.calleesOf f).foldl (fun n c => n + (s.sitesBetween c f).length) 0) := by
  have hsites : ∀ c, s.sitesBetween c f
      = ((es.filter (·.caller = f)).filter (·.target = .direct c)).map (·.site) := by
    intro c
    rw [h.sites, List.filter_filter]
    congr 2
    funext e
    rw [Bool.and_comm, Bool.decide_and]
  have hkeys : ∀ e ∈ es.filter (·.caller = f),
      e.target ∈ (s.calleesOf f).map CallTarget.direct := by
    intro e he
    obtain ⟨hmem, hcaller⟩ := List.mem_filter.1 he
    obtain ⟨c, hc, -, -⟩ := shows_eq_true.1 (h.shows e hmem)
    rw [hc]
    exact List.mem_map_of_mem ((h.calls f c).2 ⟨e, hmem, of_decide_eq_true hcaller, hc⟩)
  have hnodup : ((s.calleesOf f).map CallTarget.direct).Nodup := by
    refine List.pairwise_map.2 ((s.calleesOf_pairwise f).imp fun {c d} hlt heq => ?_)
    rw [CallTarget.direct.inj heq] at hlt
    exact Nat.lt_irrefl d.index hlt
  have hperm := perm_flatMap_filter CallEdge.target _ hnodup hkeys
  rw [List.flatMap_map] at hperm
  rw [pending?, h.pending f hf, List.countP_eq_length_filter, ← hperm.length_eq, foldl_length_eq,
    Nat.zero_add]
  simp only [hsites, ← List.map_flatMap, List.length_map]

/-- All calls are those of the functions. -/
theorem Records.length_eq :
    es.length = s.functionIds.foldl (fun n f => n + (s.pending? f).getD 0) 0 := by
  have hkeys : ∀ e ∈ es, e.caller ∈ s.functionIds := by
    intro e he
    obtain ⟨-, -, hcaller, -⟩ := shows_eq_true.1 (h.shows e he)
    exact s.mem_functionIds.2 hcaller
  have hperm := perm_flatMap_filter CallEdge.caller es Std.TreeMap.nodup_keys hkeys
  rw [← hperm.length_eq, ← Nat.zero_add (List.length _), ← foldl_length_eq]
  refine List.foldl_ext _ _ _ fun n f hf => ?_
  rw [pending?, h.pending f (s.mem_functionIds.1 hf), Option.getD_some,
    List.countP_eq_length_filter]

end Records

theorem sitesBetween_ofSource {σ : Type} [CallSource σ] (t : σ) (callee caller : FunctionId) :
    (ofSource t).sitesBetween callee caller
      = ((CallSource.callEdges t).filter fun e => e.caller = caller ∧ e.target = .direct callee
        ∧ (ofSource t).contains caller ∧ (ofSource t).contains callee).map (·.site) := by
  rw [(records_ofSource t).sites, List.filter_filter]
  congr 2
  funext e
  rw [Bool.eq_iff_iff, Bool.and_eq_true, shows_eq_true, decide_eq_true_iff, decide_eq_true_iff]
  constructor
  · rintro ⟨⟨rfl, ht⟩, c, hc, hcaller, hcallee⟩
    cases ht.symm.trans hc
    exact ⟨rfl, ht, hcaller, hcallee⟩
  · rintro ⟨rfl, ht, hcaller, hcallee⟩
    exact ⟨⟨rfl, ht⟩, callee, ht, hcaller, hcallee⟩

theorem totals_ofSource {σ : Type} [CallSource σ] (t : σ) :
    (ofSource t).edgeCount = ((CallSource.callEdges t).filter (ofSource t).shows).length
      ∧ (ofSource t).edgeCount + (ofSource t).skippedCount = (CallSource.callEdges t).length := by
  obtain ⟨hkept, hall⟩ := totals_foldl_addEdge (CallSource.callEdges t)
    (ofFunctions ((CallSource.functionIds t).filter (CallSource.hasBody t)))
  have hzero : ∀ fs, (ofFunctions fs).edgeCount = 0 ∧ (ofFunctions fs).skippedCount = 0 :=
    fun _ => ⟨rfl, rfl⟩
  simp only [hzero, Nat.zero_add] at hkept hall
  rw [shows_ofSource]
  exact ⟨hkept, hall⟩

/-- A snapshot tells what its source reported, in whatever order and however often that was, and all
of its parts tell the same. -/
theorem ofSource_consistent {σ : Type} [CallSource σ] (t : σ) :
    let s := ofSource t
    s.functionIds.Pairwise (· < ·) ∧ (∀ f, f ∈ s.functionIds ↔ s.contains f)
      ∧ (∀ f, s.contains f ↔ f ∈ CallSource.functionIds t ∧ CallSource.hasBody t f)
      ∧ (∀ callee caller, s.sitesBetween callee caller
        = ((CallSource.callEdges t).filter fun e => e.caller = caller ∧ e.target = .direct callee
          ∧ s.contains caller ∧ s.contains callee).map (·.site))
      ∧ (∀ caller, (s.calleesOf caller).Pairwise (· < ·)
        ∧ ∀ callee, callee ∈ s.calleesOf caller ↔ s.sitesBetween callee caller ≠ [])
      ∧ (∀ callee, ((s.callersOf callee).map (·.1)).Pairwise (· < ·)
        ∧ ∀ caller sites, (caller, sites) ∈ s.callersOf callee
          ↔ sites.toList = s.sitesBetween callee caller ∧ s.sitesBetween callee caller ≠ [])
      ∧ (∀ f, s.contains f → s.pending? f
        = some ((s.calleesOf f).foldl (fun n c => n + (s.sitesBetween c f).length) 0))
      ∧ s.edgeCount = s.functionIds.foldl (fun n f => n + (s.pending? f).getD 0) 0
      ∧ s.edgeCount + s.skippedCount = (CallSource.callEdges t).length := by
  intro s
  have h := records_ofSource t
  obtain ⟨hkept, hall⟩ := totals_ofSource t
  refine ⟨s.functionIds_pairwise, fun f => s.mem_functionIds, fun f => ?_,
    sitesBetween_ofSource t, fun caller => ⟨s.calleesOf_pairwise caller, ?_⟩,
    fun callee => ⟨s.callersOf_pairwise callee, ?_⟩, fun f hf => h.pending_eq hf, ?_, hall⟩
  · rw [contains_ofSource, decide_eq_true_iff]
  · exact fun callee => h.mem_calleesOf
  · exact fun caller sites => h.mem_callersOf
  · rw [hkept, h.length_eq]

end Snapshot

end PhasedInlining
