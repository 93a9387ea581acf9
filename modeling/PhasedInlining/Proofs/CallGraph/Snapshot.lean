import PhasedInlining.CallGraph.Snapshot
import PhasedInlining.Proofs.Code.WellFormed
import PhasedInlining.Target.Plain

/-!
# What a snapshot records

A snapshot keeps the direct calls whose two ends it has indexed, and forgets the rest.
`records_ofSource` says so for every source: the counts and the sites of the snapshot are those of
the calls kept. For a well-formed module these are the calls in its bodies to functions with
bodies (`mem_callsTo_ofModule`).
-/

namespace PhasedInlining

theorem Module.WellFormed.mem_callEdges {m : Module} (h : m.WellFormed) {f : FunctionId}
    {t : CallTarget} {x : CallSiteId} :
    (⟨f, t, x⟩ : CallEdge) ∈ CallSource.callEdges m ↔ .call x t ∈ m.instrsOf f := by
  change _ ∈ m.callEdges ↔ _
  simp only [Module.callEdges, List.mem_flatMap, List.mem_filterMap, h.mem_functions]
  constructor
  · rintro ⟨g, hg, i, hi, he⟩
    split at he
    · cases he
      rwa [Module.instrsOf_of_function? hg]
    · cases he
  · intro hx
    obtain ⟨g, hg⟩ := Module.contains_iff.1 (Module.contains_of_mem hx)
    have hid := h.id_eq hg
    subst hid
    rw [Module.instrsOf_of_function? hg] at hx
    exact ⟨g, hg, _, hx, rfl⟩

theorem Module.WellFormed.sites_callEdges_nodup {m : Module} (h : m.WellFormed) :
    (m.callEdges.map (·.site)).Nodup := by
  have hsites : m.callEdges.map (·.site) = m.functions.flatMap (·.sites) := by
    simp only [Module.callEdges, List.map_flatMap, List.map_filterMap]
    refine List.flatMap_congr fun k _ => List.filterMap_congr fun i _ => ?_
    cases i <;> rfl
  rw [hsites]
  exact h.handles_nodup

namespace Snapshot

theorem foldl_length_eq {α κ : Type} (parts : κ → List α) : ∀ (ks : List κ) (n : Nat),
    ks.foldl (fun n k => n + (parts k).length) n = n + (ks.flatMap parts).length
  | [], n => by simp
  | k :: ks, n => by
    rw [List.foldl_cons, foldl_length_eq parts ks, List.flatMap_cons, List.length_append,
      Nat.add_assoc]

theorem getElem?_foldl_insert {α : Type} (val : FunctionId → α) (f : FunctionId) :
    ∀ (fs : List FunctionId) (p : Std.TreeMap FunctionId α),
      (fs.foldl (fun p f => p.insert f (val f)) p)[f]? = if f ∈ fs then some (val f) else p[f]?
  | [], _ => rfl
  | g :: fs, p => by
    rw [List.foldl_cons, getElem?_foldl_insert val f fs, Std.TreeMap.getElem?_insert]
    by_cases hfs : f ∈ fs
    · simp [hfs]
    · by_cases hfg : f = g
      · simp [hfg]
      · simp [hfs, hfg, Ne.symm hfg]

/-- Whether both ends of a call are indexed. -/
def shows (s : Snapshot) (e : CallEdge) : Bool :=
  match e.target with
  | .indirect => false
  | .direct callee => s.contains e.caller && s.contains callee

/-- The snapshot's counts and sites are those of the calls `es`, all between indexed functions. -/
structure Records (s : Snapshot) (es : List CallEdge) : Prop where
  pending : ∀ f, s.contains f → s.pending[f]? = some (es.countP (·.caller = f))
  sites : ∀ callee caller, s.sitesBetween callee caller
    = (es.filter fun e => e.caller = caller ∧ e.target = .direct callee).map (·.site)
  shows : ∀ e ∈ es, s.shows e
  calls : ∀ caller callee, s.Calls caller callee
    ↔ ∃ e ∈ es, e.caller = caller ∧ e.target = .direct callee
  callers : ∀ callee caller, caller ∈ (s.callersOf callee).map (·.1)
    ↔ ∃ e ∈ es, e.caller = caller ∧ e.target = .direct callee

theorem shows_eq_true {s : Snapshot} {e : CallEdge} : s.shows e = true
    ↔ ∃ callee, e.target = .direct callee ∧ s.contains e.caller ∧ s.contains callee := by
  unfold shows
  rcases e.target with callee | _ <;> simp

section AddEdge

variable {s : Snapshot} {e : CallEdge}

theorem contains_addEdge (s : Snapshot) (e : CallEdge) (f : FunctionId) :
    (s.addEdge e).contains f = s.contains f := by
  unfold addEdge
  split
  · rfl
  · split_ifs
    · simp only [contains, Std.TreeMap.contains_eq_isSome_getElem?, Std.TreeMap.getElem?_alter,
        Std.LawfulEqCmp.compare_eq_iff_eq]
      split_ifs with h
      · rw [h, Option.isSome_map]
      · rfl
    · rfl

theorem shows_addEdge (s : Snapshot) (e e' : CallEdge) : (s.addEdge e).shows e' = s.shows e' := by
  unfold shows
  split
  · rfl
  · rw [contains_addEdge, contains_addEdge]

theorem sitesBetween_addEdge {callee : FunctionId} (ht : e.target = .direct callee)
    (hs : s.shows e) (c f : FunctionId) : (s.addEdge e).sitesBetween c f
      = s.sitesBetween c f ++ if e.caller = f ∧ callee = c then [e.site] else [] := by
  have hc : (s.contains e.caller && s.contains callee) = true := by
    simpa [shows, ht] using hs
  simp only [sitesBetween, addEdge, ht, hc, if_true, Std.TreeMap.getD_alter,
    Std.LawfulEqCmp.compare_eq_iff_eq]
  by_cases h : callee = c
  · subst h
    by_cases hf : e.caller = f
    · subst hf
      simp [Std.TreeMap.getD_eq_getD_getElem?]
    · simp [Std.TreeMap.getD_eq_getD_getElem?, Std.TreeMap.getElem?_alter, hf]
  · simp [h]

theorem calls_addEdge {callee : FunctionId} (ht : e.target = .direct callee) (hs : s.shows e)
    (f c : FunctionId) :
    (s.addEdge e).Calls f c ↔ s.Calls f c ∨ e.caller = f ∧ callee = c := by
  have hc : (s.contains e.caller && s.contains callee) = true := by
    simpa [shows, ht] using hs
  simp only [Calls, calleesOf, addEdge, ht, hc, if_true, Std.TreeMap.getD_alter,
    Std.LawfulEqCmp.compare_eq_iff_eq, Std.TreeSet.mem_toList]
  by_cases hf : e.caller = f
  · subst hf
    simp [Std.TreeMap.getD_eq_getD_getElem?, Std.TreeSet.mem_insert, or_comm]
  · simp [hf]

theorem mem_callersOf_addEdge {callee : FunctionId} (ht : e.target = .direct callee)
    (hs : s.shows e) (c f : FunctionId) : f ∈ ((s.addEdge e).callersOf c).map (·.1)
      ↔ f ∈ (s.callersOf c).map (·.1) ∨ e.caller = f ∧ callee = c := by
  have hc : (s.contains e.caller && s.contains callee) = true := by
    simpa [shows, ht] using hs
  simp only [callersOf, addEdge, ht, hc, if_true, Std.TreeMap.getD_alter,
    Std.LawfulEqCmp.compare_eq_iff_eq, Std.TreeMap.map_fst_toList_eq_keys, Std.TreeMap.mem_keys]
  by_cases hcallee : callee = c
  · subst hcallee
    simp only [if_true, Option.getD_some, Std.TreeMap.mem_alter,
      Std.LawfulEqCmp.compare_eq_iff_eq, Option.isSome_some, Std.TreeMap.getD_eq_getD_getElem?]
    by_cases hf : e.caller = f <;> simp [hf]
  · simp [hcallee]

theorem Records.addEdge_of_shows {es : List CallEdge} (h : s.Records es) (hs : s.shows e) :
    (s.addEdge e).Records (es ++ [e]) := by
  obtain ⟨callee, ht, hcaller, hcallee⟩ := shows_eq_true.1 hs
  have hlast : ∀ f c, (∃ e' ∈ es ++ [e], e'.caller = f ∧ e'.target = .direct c)
      ↔ (∃ e' ∈ es, e'.caller = f ∧ e'.target = .direct c) ∨ e.caller = f ∧ callee = c := by
    intro f c
    simp [or_and_right, exists_or, ht]
  refine ⟨fun f hf => ?_, fun c f => ?_, fun e' he' => ?_, fun f c => ?_, fun c f => ?_⟩
  · rw [contains_addEdge] at hf
    have hp := h.pending f hf
    simp only [addEdge, ht, hcaller, hcallee, Bool.and_self, if_true, Std.TreeMap.getElem?_alter,
      Std.LawfulEqCmp.compare_eq_iff_eq, List.countP_append]
    split_ifs with hef
    · subst hef
      simp [hp]
    · simp [hp, hef]
  · rw [sitesBetween_addEdge ht hs, h.sites, List.filter_append, List.map_append]
    split_ifs with hcf
    · obtain ⟨rfl, rfl⟩ := hcf
      simp [ht]
    · rw [List.filter_cons_of_neg]
      · rfl
      · simpa [ht] using hcf
  · rw [shows_addEdge]
    rcases List.mem_append.1 he' with he' | he'
    · exact h.shows e' he'
    · rw [List.mem_singleton.1 he']
      exact hs
  · rw [calls_addEdge ht hs, hlast, h.calls]
  · rw [mem_callersOf_addEdge ht hs, hlast, h.callers]

theorem Records.addEdge_of_not_shows {es : List CallEdge} (h : s.Records es)
    (hs : s.shows e = false) : (s.addEdge e).Records es := by
  unfold addEdge
  split
  · exact ⟨h.pending, h.sites, h.shows, h.calls, h.callers⟩
  · rename_i callee ht
    have hc : (s.contains e.caller && s.contains callee) = false := by
      unfold Snapshot.shows at hs
      rwa [ht] at hs
    rw [hc]
    exact ⟨h.pending, h.sites, h.shows, h.calls, h.callers⟩

theorem Records.foldl_addEdge : ∀ (es : List CallEdge) {s : Snapshot} {kept : List CallEdge},
    s.Records kept → (es.foldl addEdge s).Records (kept ++ es.filter s.shows)
  | [], _, _, h => by simpa using h
  | e :: es, s, kept, h => by
    have hsame : (s.addEdge e).shows = s.shows := funext (shows_addEdge s e)
    rcases hs : s.shows e with _ | _
    · rw [List.filter_cons_of_neg (by simp [hs]), ← hsame]
      exact foldl_addEdge es (h.addEdge_of_not_shows hs)
    · rw [List.filter_cons_of_pos hs, List.append_cons, ← hsame]
      exact foldl_addEdge es (h.addEdge_of_shows hs)

theorem contains_foldl_addEdge (f : FunctionId) : ∀ (es : List CallEdge) (s : Snapshot),
    (es.foldl addEdge s).contains f = s.contains f
  | [], _ => rfl
  | e :: es, s => by
    rw [List.foldl_cons, contains_foldl_addEdge f es, contains_addEdge]

end AddEdge

section OfSource

theorem contains_ofFunctions (fs : List FunctionId) (f : FunctionId) :
    (ofFunctions fs).contains f = decide (f ∈ fs) := by
  unfold contains ofFunctions
  rw [Std.TreeMap.contains_eq_isSome_getElem?, getElem?_foldl_insert]
  split_ifs with h <;> simp [h]

theorem records_ofFunctions (fs : List FunctionId) : (ofFunctions fs).Records [] := by
  refine ⟨fun f hf => ?_, fun callee caller => ?_, fun e he => (nomatch he),
    fun caller callee => ?_, fun callee caller => ?_⟩
  · rw [contains_ofFunctions, decide_eq_true_eq] at hf
    unfold ofFunctions
    rw [getElem?_foldl_insert, if_pos hf]
    rfl
  · simp [sitesBetween, ofFunctions]
  · simp [Calls, calleesOf, ofFunctions]
  · simp [callersOf, ofFunctions]

variable {σ : Type} [CallSource σ] (t : σ)

open CallSource

theorem contains_ofSource (f : FunctionId) :
    (ofSource t).contains f = decide (f ∈ CallSource.functionIds t ∧ hasBody t f) := by
  unfold ofSource
  rw [contains_foldl_addEdge, contains_ofFunctions]
  simp only [List.mem_filter]

theorem shows_ofSource : (ofSource t).shows
    = (ofFunctions ((CallSource.functionIds t).filter (hasBody t))).shows := by
  funext e
  unfold shows ofSource
  simp only [contains_foldl_addEdge]

/-- A snapshot records the direct calls between functions with bodies that the source reports. -/
theorem records_ofSource : (ofSource t).Records ((callEdges t).filter (ofSource t).shows) := by
  have h := (records_ofFunctions
    ((CallSource.functionIds t).filter (hasBody t))).foldl_addEdge (callEdges t)
  rw [shows_ofSource]
  exact h

end OfSource

section CallsTo

theorem mem_callsTo {s : Snapshot} {callee caller : FunctionId} {site : CallSiteId} :
    (caller, site) ∈ s.callsTo callee ↔ site ∈ s.sitesBetween callee caller := by
  unfold callsTo callersOf sitesBetween
  simp only [List.mem_flatMap, List.mem_map, Prod.mk.injEq, Prod.exists,
    Std.TreeMap.mem_toList_iff_getElem?_eq_some, Std.TreeMap.getD_eq_getD_getElem? (a := caller)]
  constructor
  · rintro ⟨f, sites, hf, x, hx, rfl, rfl⟩
    rw [hf]
    exact hx
  · rcases h : (s.callers.getD callee ∅)[caller]? with _ | sites
    · intro hx
      simp at hx
    · exact fun hx => ⟨caller, sites, h, site, hx, rfl, rfl⟩

theorem distinct_callersOf (s : Snapshot) (callee : FunctionId) :
    (s.callersOf callee).Pairwise (·.1 ≠ ·.1) := by
  refine Std.TreeMap.distinct_keys_toList.imp fun h heq => h ?_
  rw [heq, Std.LawfulEqCmp.compare_eq_iff_eq]

theorem sites_of_mem_callersOf {s : Snapshot} {callee caller : FunctionId}
    {sites : Array CallSiteId} (h : (caller, sites) ∈ s.callersOf callee) :
    sites.toList = s.sitesBetween callee caller := by
  rw [callersOf, Std.TreeMap.mem_toList_iff_getElem?_eq_some] at h
  rw [sitesBetween, Std.TreeMap.getD_eq_getD_getElem? (a := caller), h, Option.getD_some]

theorem count_flatMap_of_pairwise (f : FunctionId) :
    ∀ {l : List (FunctionId × Array CallSiteId)}, l.Pairwise (·.1 ≠ ·.1) →
      ((∀ sites, (f, sites) ∉ l) →
        ((l.flatMap fun (g, sites) => sites.toList.map (g, ·)).map (·.1)).count f = 0)
      ∧ ∀ sites, (f, sites) ∈ l →
        ((l.flatMap fun (g, sites) => sites.toList.map (g, ·)).map (·.1)).count f = sites.size
  | [], _ => ⟨fun _ => rfl, fun _ h => nomatch h⟩
  | (g, sites) :: l, hl => by
    obtain ⟨hg, hl⟩ := List.pairwise_cons.1 hl
    obtain ⟨hout, hin⟩ := count_flatMap_of_pairwise f hl
    simp only [List.flatMap_cons, List.map_append, List.count_append, List.map_map]
    by_cases hgf : g = f
    · subst hgf
      have hrest := hout fun sites' h' => hg _ h' rfl
      refine ⟨fun h => absurd List.mem_cons_self (h sites), fun sites' h' => ?_⟩
      rcases List.mem_cons.1 h' with h' | h'
      · cases h'
        rw [hrest]
        simp [Function.comp_def]
      · exact absurd rfl (hg (g, sites') h')
    · have hfirst : (sites.toList.map ((·.1) ∘ (g, ·))).count f = 0 := by
        simp [Function.comp_def, List.count_replicate, hgf]
      rw [hfirst, Nat.zero_add]
      refine ⟨fun h => hout fun sites' h' => h sites' (List.mem_cons_of_mem _ h'),
        fun sites' h' => hin sites' ?_⟩
      rcases List.mem_cons.1 h' with h' | h'
      · cases h'
        exact absurd rfl hgf
      · exact h'

/-- A caller is listed once for each of its calls. -/
theorem count_callsTo (s : Snapshot) (callee caller : FunctionId) :
    ((s.callsTo callee).map (·.1)).count caller = (s.sitesBetween callee caller).length := by
  obtain ⟨hout, hin⟩ := count_flatMap_of_pairwise caller (s.distinct_callersOf callee)
  unfold callsTo sitesBetween
  rw [Std.TreeMap.getD_eq_getD_getElem?]
  rcases h : (s.callers.getD callee ∅)[caller]? with _ | sites
  · refine hout fun sites hs => ?_
    rw [callersOf, Std.TreeMap.mem_toList_iff_getElem?_eq_some, h] at hs
    cases hs
  · exact hin sites (Std.TreeMap.mem_toList_iff_getElem?_eq_some.2 h)

end CallsTo

section OfModule

variable {m : Module}

theorem contains_ofModule (h : m.WellFormed) (f : FunctionId) :
    (ofSource m).contains f = m.hasBody f := by
  rw [contains_ofSource, Bool.eq_iff_iff, decide_eq_true_eq]
  exact ⟨fun hf => hf.2, fun hf => ⟨h.mem_functionIds.2 (Module.contains_of_hasBody hf), hf⟩⟩

/-- The calls to a function in a snapshot of a module are the calls in the module's bodies. -/
theorem mem_callsTo_ofModule (h : m.WellFormed) {f c : FunctionId} {x : CallSiteId} :
    (f, x) ∈ (ofSource m).callsTo c ↔ m.hasBody c ∧ .call x (.direct c) ∈ m.instrsOf f := by
  rw [mem_callsTo, (records_ofSource m).sites]
  simp only [List.mem_map, List.mem_filter, shows_eq_true, contains_ofModule h, decide_eq_true_eq]
  constructor
  · rintro ⟨⟨f', t, x'⟩, ⟨⟨he, c', hc', -, hbody⟩, rfl, rfl⟩, rfl⟩
    cases hc'
    exact ⟨hbody, h.mem_callEdges.1 he⟩
  · rintro ⟨hbody, hx⟩
    exact ⟨⟨f, .direct c, x⟩, ⟨⟨h.mem_callEdges.2 hx, c, rfl, Module.hasBody_of_mem hx, hbody⟩,
      rfl, rfl⟩, rfl⟩

/-- A snapshot of a module lists each call once. -/
theorem callsTo_nodup (h : m.WellFormed) (c : FunctionId) : ((ofSource m).callsTo c).Nodup := by
  refine List.nodup_flatMap.2 ⟨?_, (distinct_callersOf _ c).imp ?_⟩
  · rintro ⟨f, sites⟩ hmem
    refine List.Nodup.map (fun x y hxy => (Prod.mk.inj hxy).2) ?_
    rw [sites_of_mem_callersOf hmem, (records_ofSource m).sites]
    exact h.sites_callEdges_nodup.sublist
      ((List.filter_sublist.trans List.filter_sublist).map _)
  · rintro ⟨f, sites⟩ ⟨g, sites'⟩ hne call hcall hcall'
    obtain ⟨x, -, rfl⟩ := List.mem_map.1 hcall
    obtain ⟨y, -, heq⟩ := List.mem_map.1 hcall'
    exact hne (Prod.mk.inj heq).1.symm

end OfModule

end Snapshot

end PhasedInlining
