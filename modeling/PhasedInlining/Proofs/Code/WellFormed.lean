import Mathlib.Data.List.Nodup
import Mathlib.Data.List.Sort
import PhasedInlining.Code.Blueprint
import PhasedInlining.Proofs.Code.Lookup

/-!
# Edits keep a module's tables in step with its slots

Every edit changes one function: it adds it, removes it, or gives it another body. What the tables
must then say depends only on the handles of that one body, so each edit is an instance of
`WellFormed.update`: the handles it keeps or issues belong to the function, those it drops belong
to nobody, and no other function notices.

In a well-formed module a handle leads to a call exactly if the call stands in the body it leads to
(`WellFormed.callAt?_iff`), no two functions share a name, and no two calls a handle.
-/

namespace PhasedInlining

/-- Handles in order are determined by which they are. -/
theorem FunctionId.eq_of_mem_iff {fs gs : List FunctionId} (hfs : fs.Pairwise (· < ·))
    (hgs : gs.Pairwise (· < ·)) (h : ∀ f, f ∈ fs ↔ f ∈ gs) : fs = gs := by
  have : Std.Antisymm fun f g : FunctionId => f < g := ⟨fun f g hfg hgf =>
    absurd (show f.index < g.index from hfg) (Nat.lt_asymm hgf)⟩
  have : Std.Irrefl fun f g : FunctionId => f < g := ⟨fun f hf => Nat.lt_irrefl f.index hf⟩
  exact hfs.eq_of_mem_iff hgs h

namespace Body

theorem mem_range'_map {s : CallSiteId} {next n : Nat} :
    s ∈ (List.range' next n).map CallSiteId.mk ↔ next ≤ s.value ∧ s.value < next + n := by
  cases s
  simp

theorem range'_map_nodup (next n : Nat) : ((List.range' next n).map CallSiteId.mk).Nodup :=
  (List.nodup_range' (s := next) (n := n)).map fun _ _ h => CallSiteId.mk.inj h

end Body

namespace Module

namespace WellFormed

variable {m m' : Module}

section Consequences

theorem id_eq (h : m.WellFormed) {f : FunctionId} {g : Function} (hf : m.function? f = some g) :
    g.id = f :=
  h.slot_id f.index g (slots_eq_iff.2 hf)

theorem owner_of_mem (h : m.WellFormed) {s : CallSiteId} {t : CallTarget} {f : FunctionId}
    (hs : .call s t ∈ m.instrsOf f) : m.owners[s]? = some f :=
  (h.owner_iff s f).2 (Body.mem_sites.2 ⟨t, hs⟩)

theorem site_lt_of_mem (h : m.WellFormed) {f : FunctionId} {s : CallSiteId} {t : CallTarget}
    (hs : .call s t ∈ m.instrsOf f) : s.value < m.nextSite :=
  h.site_lt f s (Body.mem_sites.2 ⟨t, hs⟩)

/-- A handle leads to a call exactly if the call stands in the body that it leads to. -/
theorem callAt?_iff (h : m.WellFormed) {s : CallSiteId} {f : FunctionId} {t : CallTarget} :
    m.callAt? s = some (f, t) ↔ .call s t ∈ m.instrsOf f := by
  rw [callAt?_eq_some]
  constructor
  · rintro ⟨-, pre, post, hbody, -⟩
    simp [hbody]
  · intro hs
    refine ⟨h.owner_of_mem hs, ?_⟩
    obtain ⟨pre, post, hbody⟩ := List.append_of_mem hs
    refine ⟨pre, post, hbody, fun hpre => ?_⟩
    have hnd := h.sites_nodup f
    rw [sitesIn, hbody, Body.sites_append, Body.sites_call_cons] at hnd
    exact (List.nodup_append.1 hnd).2.2 s hpre s List.mem_cons_self rfl

theorem call_unique (h : m.WellFormed) {f f' : FunctionId} {s : CallSiteId} {t t' : CallTarget}
    (hs : .call s t ∈ m.instrsOf f) (hs' : .call s t' ∈ m.instrsOf f') : f' = f ∧ t' = t := by
  rw [← h.callAt?_iff] at hs hs'
  exact Prod.mk.inj (Option.some.inj (hs'.symm.trans hs))

theorem currentCallee?_iff (h : m.WellFormed) {s : CallSiteId} {c : FunctionId} :
    m.currentCallee? s = some c ↔ ∃ f, .call s (.direct c) ∈ m.instrsOf f := by
  simp only [currentCallee?_eq_some, h.callAt?_iff]

/-- The functions of a module are those that have a handle. -/
theorem mem_functions (h : m.WellFormed) {g : Function} :
    g ∈ m.functions ↔ m.function? g.id = some g := by
  simp only [functions, List.mem_filterMap]
  constructor
  · rintro ⟨_, hg, rfl⟩
    obtain ⟨i, hi⟩ := List.mem_iff_getElem?.1 hg
    rw [Array.getElem?_toList] at hi
    rw [h.slot_id i g hi]
    exact slots_eq_iff.1 hi
  · intro hg
    refine ⟨some g, ?_, rfl⟩
    rw [List.mem_iff_getElem?]
    exact ⟨g.id.index, by rw [Array.getElem?_toList]; exact slots_eq_iff.2 hg⟩

/-- The functions are listed by their handles. -/
theorem functions_pairwise (h : m.WellFormed) :
    m.functions.Pairwise fun g g' => g.id < g'.id := by
  refine List.pairwise_filterMap.2 (List.pairwise_iff_getElem.2 fun i j hi hj hij => ?_)
  intro g hg g' hg'
  simp only [id] at hg hg'
  have hi' : m.slots[i]? = some (some g) := by
    rw [← Array.getElem?_toList, List.getElem?_eq_getElem hi, hg]
  have hj' : m.slots[j]? = some (some g') := by
    rw [← Array.getElem?_toList, List.getElem?_eq_getElem hj, hg']
  rw [h.slot_id i g hi', h.slot_id j g' hj']
  exact hij

theorem functionIds_nodup (h : m.WellFormed) : m.functionIds.Nodup :=
  List.pairwise_map.2 (h.functions_pairwise.imp fun {g g'} hlt heq => by
    have : g.id.index < g'.id.index := hlt
    rw [heq] at this
    omega)

theorem mem_functionIds (h : m.WellFormed) {f : FunctionId} :
    f ∈ m.functionIds ↔ m.contains f := by
  simp only [functionIds, List.mem_map, contains_iff, h.mem_functions]
  constructor
  · rintro ⟨g, hg, rfl⟩
    exact ⟨g, hg⟩
  · rintro ⟨g, hg⟩
    have hid := h.id_eq hg
    exact ⟨g, hid.symm ▸ hg, hid⟩

/-- No two functions share a name. -/
theorem names_nodup (h : m.WellFormed) : (m.functions.map (·.name)).Nodup := by
  refine List.pairwise_map.2 (h.functions_pairwise.imp_of_mem fun {g g'} hg hg' hlt hname => ?_)
  have hb := (h.byName_iff g.name g.id).2 ⟨g, h.mem_functions.1 hg, rfl⟩
  have hb' := (h.byName_iff g.name g'.id).2 ⟨g', h.mem_functions.1 hg', hname.symm⟩
  have hid : g.id = g'.id := Option.some.inj (hb.symm.trans hb')
  have : g.id.index < g'.id.index := hlt
  rw [hid] at this
  omega

theorem sites_eq_sitesIn (h : m.WellFormed) {g : Function} (hg : g ∈ m.functions) :
    g.sites = m.sitesIn g.id := by
  rw [sitesIn, instrsOf_of_function? (h.mem_functions.1 hg)]
  rfl

theorem flatMap_sitesIn (h : m.WellFormed) :
    m.functionIds.flatMap m.sitesIn = m.functions.flatMap (·.sites) := by
  rw [functionIds, List.flatMap_map]
  exact List.flatMap_congr fun g hg => (h.sites_eq_sitesIn hg).symm

/-- No two calls share a handle, wherever they stand. -/
theorem handles_nodup (h : m.WellFormed) : (m.functions.flatMap (·.sites)).Nodup := by
  refine List.nodup_flatMap.2 ⟨fun g hg => ?_, ?_⟩
  · rw [h.sites_eq_sitesIn hg]
    exact h.sites_nodup g.id
  · refine h.functions_pairwise.imp_of_mem fun {g g'} hg hg' hlt s hs hs' => ?_
    simp only [h.sites_eq_sitesIn hg, h.sites_eq_sitesIn hg', ← h.owner_iff] at hs hs'
    have hid : g.id = g'.id := Option.some.inj (hs.symm.trans hs')
    have : g.id.index < g'.id.index := hlt
    rw [hid] at this
    omega

end Consequences

section Update

/-- One function is changed, and the tables follow: the names are right, and the handles in the
function's body are some it had and some issued just now, all of them its own. -/
theorem update (h : m.WellFormed) (f : FunctionId)
    (hfun : ∀ g, g ≠ f → m'.function? g = m.function? g)
    (hid : ∀ g, m'.function? f = some g → g.id = f)
    (hname : ∀ name g, m'.byName[name]? = some g ↔ ∃ k, m'.function? g = some k ∧ k.name = name)
    (hown : ∀ s, m'.owners[s]? = if s ∈ m'.sitesIn f then some f
      else if s ∈ m.sitesIn f then none else m.owners[s]?)
    (hfresh : ∀ s ∈ m'.sitesIn f, s ∈ m.sitesIn f ∨ m.nextSite ≤ s.value ∧ s.value < m'.nextSite)
    (hnodup : (m'.sitesIn f).Nodup) (hle : m.nextSite ≤ m'.nextSite) : m'.WellFormed := by
  have hsites : ∀ g, g ≠ f → m'.sitesIn g = m.sitesIn g := by
    intro g hg
    simp only [sitesIn, instrsOf, hfun g hg]
  refine ⟨?_, hname, ?_, ?_, ?_⟩
  · intro i g hi
    have hg := slots_eq_iff.1 hi
    by_cases hf : ⟨i⟩ = f
    · rw [hf] at hg ⊢
      exact hid g hg
    · rw [hfun _ hf] at hg
      exact h.id_eq hg
  · intro s g
    rw [hown s]
    by_cases hg : g = f
    · subst hg
      split_ifs with h1 h2
      · simp [h1]
      · simp [h1]
      · simp only [h1, iff_false, h.owner_iff]
        exact h2
    · rw [hsites g hg]
      have hother : s ∈ m.sitesIn f → s ∉ m.sitesIn g := by
        intro hs hs'
        rw [← h.owner_iff] at hs hs'
        exact hg (Option.some.inj (hs'.symm.trans hs))
      split_ifs with h1 h2
      · have hs' : s ∉ m.sitesIn g := by
          rcases hfresh s h1 with hs | ⟨hs, -⟩
          · exact hother hs
          · intro hs'
            have := h.site_lt g s hs'
            omega
        simp [hs', Ne.symm hg]
      · simp [hother h2]
      · exact h.owner_iff s g
  · intro g s hs
    by_cases hg : g = f
    · subst hg
      rcases hfresh s hs with hs | ⟨-, hs⟩
      · exact Nat.lt_of_lt_of_le (h.site_lt g s hs) hle
      · exact hs
    · rw [hsites g hg] at hs
      exact Nat.lt_of_lt_of_le (h.site_lt g s hs) hle
  · intro g
    by_cases hg : g = f
    · subst hg
      exact hnodup
    · rw [hsites g hg]
      exact h.sites_nodup g

theorem not_mem_sitesIn (h : m.WellFormed) {s : CallSiteId} {f : FunctionId}
    (hs : m.nextSite ≤ s.value) : s ∉ m.sitesIn f := by
  intro hf
  have := h.site_lt f s hf
  omega

end Update

section Edits

theorem new (name : String) : ({ name } : Module).WellFormed := by
  refine ⟨?_, ?_, ?_, ?_, ?_⟩ <;> simp [function?, sitesIn, instrsOf, Body.sites]

/-- A function keeps its name when its body is changed. -/
theorem byName_setBody (h : m.WellFormed) (f : FunctionId) (body : Body) (name : String)
    (g : FunctionId) : m.byName[name]? = some g ↔
      ∃ k, (m.setBody f body).function? g = some k ∧ k.name = name := by
  rw [h.byName_iff, function?_setBody]
  split_ifs with hg
  · subst hg
    simp only [Option.map_eq_some_iff]
    constructor
    · rintro ⟨k, hk, rfl⟩
      exact ⟨_, ⟨k, hk, rfl⟩, rfl⟩
    · rintro ⟨_, ⟨k, hk, rfl⟩, rfl⟩
      exact ⟨k, hk, rfl⟩
  · rfl

theorem push (h : m.WellFormed) {f : Function} (hname : m.byName.contains f.name = false) :
    (m.push f).2.WellFormed := by
  set next : FunctionId := ⟨m.slots.size⟩
  have hfun : ∀ g, (m.push f).2.function? g = if g = next
      then some { f with id := next, body := f.body.map (Body.issue m.nextSite) }
      else m.function? g := function?_push f
  have hnone : m.function? next = none := by simp [function?, next]
  have hold : m.sitesIn next = [] := by simp [sitesIn, instrsOf, hnone, Body.sites]
  have hnew : (m.push f).2.sitesIn next
      = (List.range' m.nextSite (Body.callCount f.instrs)).map CallSiteId.mk := by
    rw [sitesIn, instrsOf_push, if_pos rfl, Body.sites_issue]
  refine h.update next (fun g hg => by rw [hfun, if_neg hg]) ?_ ?_ ?_ ?_ ?_ ?_
  · intro g hg
    rw [hfun, if_pos rfl, Option.some.injEq] at hg
    rw [← hg]
  · intro name g
    have hbn : (m.push f).2.byName = m.byName.insert f.name next := rfl
    rw [hbn, Std.TreeMap.getElem?_insert, hfun]
    simp only [Std.LawfulEqCmp.compare_eq_iff_eq]
    have hfree : m.byName[f.name]? = none := by
      rw [Std.TreeMap.contains_eq_isSome_getElem?] at hname
      exact Option.isNone_iff_eq_none.1 (Option.isSome_eq_false_iff.1 hname)
    by_cases hg : g = next
    · subst hg
      have hno : m.byName[name]? ≠ some next := by
        rw [Ne, h.byName_iff, hnone]
        simp
      by_cases hn : f.name = name <;> simp [hn, hno]
    · rw [if_neg hg, ← h.byName_iff]
      by_cases hn : f.name = name
      · subst hn
        simp [hfree, Ne.symm hg]
      · simp [hn]
  · intro s
    have ho : (m.push f).2.owners = (m.issueSites next (Body.callCount f.instrs)).owners := rfl
    rw [ho, owners_issueSites, hold, hnew]
    simp only [List.not_mem_nil, ↓reduceIte, Body.mem_range'_map]
  · intro s hs
    rw [hnew, Body.mem_range'_map] at hs
    exact .inr hs
  · rw [hnew]
    exact Body.range'_map_nodup _ _
  · exact Nat.le_add_right _ _

theorem add (h : m.WellFormed) (f : Function) : (m.add f).2.WellFormed := by
  rcases m.add_cases f with ha | ⟨hname, ha⟩ <;> rw [ha]
  · exact h
  · exact h.push hname

/-- Another body for a function that is there. Its handles are some of the function's and `n` fresh
ones; those that it lacks are taken from the table. -/
theorem setBody (h : m.WellFormed) {f : FunctionId} (hf : m.contains f) {body : Body} {n : Nat}
    (owners : Std.TreeMap CallSiteId FunctionId)
    (hmem : ∀ s ∈ Body.sites body, s ∈ m.sitesIn f
      ∨ m.nextSite ≤ s.value ∧ s.value < m.nextSite + n)
    (hnodup : (Body.sites body).Nodup)
    (hown : ∀ s, owners[s]? = if s ∈ Body.sites body then some f
      else if s ∈ m.sitesIn f then none else m.owners[s]?) :
    { (m.issueSites f n).setBody f body with owners }.WellFormed := by
  set m' : Module := { (m.issueSites f n).setBody f body with owners }
  have hfun : ∀ g, m'.function? g = (m.setBody f body).function? g := fun _ => rfl
  have hsites : m'.sitesIn f = Body.sites body := by
    rw [sitesIn, instrsOf, hfun, ← instrsOf, instrsOf_setBody hf, if_pos rfl]
  refine h.update f (fun g hg => by rw [hfun, function?_setBody, if_neg hg]) ?_ ?_ ?_ ?_ ?_ ?_
  · intro g hg
    rw [hfun, function?_setBody, if_pos rfl, Option.map_eq_some_iff] at hg
    obtain ⟨k, hk, rfl⟩ := hg
    have hid : k.id = f := h.id_eq hk
    exact hid
  · exact h.byName_setBody f body
  · intro s
    rw [hsites]
    exact hown s
  · intro s hs
    rw [hsites] at hs
    exact hmem s hs
  · rw [hsites]
    exact hnodup
  · exact Nat.le_add_right _ _

theorem append (h : m.WellFormed) {α : Type} (f : FunctionId) (is : List (Instr α)) :
    (m.append f is).2.WellFormed := by
  rcases m.append_cases f is with ha | ⟨hf, new, ha⟩ <;> rw [ha]
  · exact h
  have hs : Body.sites (m.instrsOf f ++ Body.issue m.nextSite new) = m.sitesIn f
      ++ (List.range' m.nextSite (Body.callCount new)).map CallSiteId.mk := by
    rw [Body.sites_append, Body.sites_issue, sitesIn]
  refine h.setBody hf (m.issueSites f (Body.callCount new)).owners ?_ ?_ ?_
  · intro s hmem
    rwa [hs, List.mem_append, Body.mem_range'_map] at hmem
  · rw [hs, List.nodup_append]
    refine ⟨h.sites_nodup f, Body.range'_map_nodup _ _, fun s h1 s' h2 heq => ?_⟩
    subst heq
    exact h.not_mem_sitesIn (Body.mem_range'_map.1 h2).1 h1
  · intro s
    rw [owners_issueSites, hs]
    simp only [List.mem_append, Body.mem_range'_map]
    by_cases h1 : s ∈ m.sitesIn f
    · have hlt := h.site_lt f s h1
      rw [if_neg (by omega), if_pos (.inl h1)]
      exact (h.owner_iff s f).2 h1
    · simp [h1]

theorem owners_foldl_erase (s : CallSiteId) :
    ∀ (ss : List CallSiteId) (o : Std.TreeMap CallSiteId FunctionId),
      (ss.foldl (fun o s => o.erase s) o)[s]? = if s ∈ ss then none else o[s]?
  | [], o => by simp
  | t :: ss, o => by
    rw [List.foldl_cons, owners_foldl_erase s ss, Std.TreeMap.getElem?_erase]
    simp only [Std.LawfulEqCmp.compare_eq_iff_eq, List.mem_cons, eq_comm (a := t)]
    by_cases h1 : s ∈ ss <;> by_cases h2 : s = t <;> simp [h1, h2]

theorem remove (h : m.WellFormed) (f : FunctionId) : (m.remove f).2.WellFormed := by
  rcases hf : m.function? f with _ | g
  · simpa [Module.remove, hf] using h
  have hsites : (m.remove f).2.sitesIn f = [] := by
    rw [sitesIn, instrsOf_remove, if_pos rfl]
    rfl
  have hg : g.sites = m.sitesIn f := by
    rw [sitesIn, instrsOf_of_function? hf]
    rfl
  have hown : (m.remove f).2.owners = g.sites.foldl (fun o s => o.erase s) m.owners := by
    simp [Module.remove, hf]
  have hname : (m.remove f).2.byName = m.byName.erase g.name := by
    have : m.byName[g.name]? = some f := (h.byName_iff g.name f).2 ⟨g, hf, rfl⟩
    simp [Module.remove, hf, this]
  refine h.update f (fun k hk => by rw [function?_remove, if_neg hk]) ?_ ?_ ?_ ?_ ?_ ?_
  · intro k hk
    rw [function?_remove, if_pos rfl] at hk
    cases hk
  · intro name k
    rw [hname, Std.TreeMap.getElem?_erase, function?_remove]
    simp only [Std.LawfulEqCmp.compare_eq_iff_eq]
    by_cases hk : k = f
    · subst hk
      have hno : g.name ≠ name → m.byName[name]? ≠ some k := by
        intro hn hb
        obtain ⟨g', hg', rfl⟩ := (h.byName_iff name k).1 hb
        rw [hf] at hg'
        exact hn (by rw [Option.some.inj hg'])
      by_cases hn : g.name = name <;> simp [hn, hno]
    · rw [if_neg hk, ← h.byName_iff]
      have hno : g.name = name → m.byName[name]? ≠ some k := by
        rintro rfl hb
        rw [(h.byName_iff g.name f).2 ⟨g, hf, rfl⟩] at hb
        exact hk (Option.some.inj hb).symm
      by_cases hn : g.name = name
      · simp [hn, hno]
      · simp [hn]
  · intro s
    rw [hown, owners_foldl_erase, hsites, hg]
    simp
  · intro s hs
    rw [hsites] at hs
    cases hs
  · rw [hsites]
    exact List.nodup_nil
  · simp [Module.remove, hf]

theorem splice (h : m.WellFormed) (s : CallSiteId) : (m.splice s).2.WellFormed := by
  unfold Module.splice
  rcases hs : m.spliceable s with r | ⟨f, g⟩
  · exact h
  obtain ⟨c, hcall, -, -, -, -, -⟩ := spliceable_ok.1 hs
  obtain ⟨howner, pre, post, hbody, hpre⟩ := callAt?_eq_some.1 hcall
  have hlive : m.contains f := contains_of_mem (i := .call s (.direct c)) (by simp [hbody])
  have hin : m.sitesIn f = Body.sites pre ++ s :: Body.sites post := by
    rw [sitesIn, hbody, Body.sites_append, Body.sites_call_cons]
  set copy := Body.withoutReturns g.instrs
  have hsites : Body.sites (Body.replaceCall s (Body.issue m.nextSite copy) (m.instrsOf f))
      = Body.sites pre ++ (List.range' m.nextSite (Body.callCount copy)).map CallSiteId.mk
        ++ Body.sites post := by
    rw [hbody, Body.replaceCall_split hpre, Body.sites_append, Body.sites_append, Body.sites_issue]
  have hnd := h.sites_nodup f
  rw [hin] at hnd
  have hold : ∀ t, t ∈ Body.sites pre ∨ t ∈ Body.sites post → t.value < m.nextSite ∧ t ≠ s := by
    intro t ht
    refine ⟨h.site_lt f t ?_, ?_⟩
    · rw [hin]
      rcases ht with ht | ht <;> simp [ht]
    · rintro rfl
      rw [List.nodup_append, List.nodup_cons] at hnd
      rcases ht with ht | ht
      · exact hpre ht
      · exact hnd.2.1.1 ht
  refine h.setBody hlive _ ?_ ?_ ?_
  · intro t ht
    rw [hsites] at ht
    simp only [List.mem_append, Body.mem_range'_map] at ht
    rw [hin]
    rcases ht with (ht | ht) | ht
    · exact .inl (by simp [ht])
    · exact .inr ht
    · exact .inl (by simp [ht])
  · rw [hsites]
    obtain ⟨h1, h2, h3⟩ := List.nodup_append.1 hnd
    have hfresh : ∀ t ∈ (List.range' m.nextSite (Body.callCount copy)).map CallSiteId.mk,
        ¬ t.value < m.nextSite := by
      intro t ht
      have := (Body.mem_range'_map.1 ht).1
      omega
    refine List.nodup_append.2 ⟨List.nodup_append.2 ⟨h1, Body.range'_map_nodup _ _, ?_⟩,
      (List.nodup_cons.1 h2).2, ?_⟩
    · rintro t ht _ ht' rfl
      exact hfresh t ht' (hold t (.inl ht)).1
    · rintro t ht _ ht' rfl
      rcases List.mem_append.1 ht with ht | ht
      · exact h3 t ht t (List.mem_cons_of_mem _ ht') rfl
      · exact hfresh t ht (hold t (.inr ht')).1
  · intro t
    have hown := owners_splice hs t
    rw [Module.splice, hs, ← show Body.callCount copy = _ from Body.callCount_withoutReturns _]
      at hown
    refine hown.trans ?_
    rw [hsites, hin]
    simp only [List.mem_append, List.mem_cons, Body.mem_range'_map]
    by_cases hts : t = s
    · subst hts
      have hno : ¬ (t ∈ Body.sites pre ∨ t ∈ Body.sites post) := fun ht => (hold t ht).2 rfl
      have hlt := h.site_lt f t (by simp [hin])
      rw [not_or] at hno
      simp [hno, Nat.not_le.2 hlt]
    · rw [if_neg hts]
      by_cases ht : t ∈ Body.sites pre ∨ t ∈ Body.sites post
      · have hlt := (hold t ht).1
        have ho : m.owners[t]? = some f := by
          rw [h.owner_iff, hin]
          rcases ht with ht | ht <;> simp [ht]
        rw [if_neg (by omega), ho, if_pos (by tauto)]
      · rw [not_or] at ht
        simp [ht, hts]

end Edits

end WellFormed

section Blueprints

variable {P : Module → Prop}

theorem each_keeps {α β : Type} {edit : Module → α → Except Fault β × Module}
    (hedit : ∀ m a, P m → P (edit m a).2) {m : Module} (hm : P m) (as : List α) :
    P (m.each edit as).2 := by
  refine List.foldlRecOn (motive := fun done : Except Fault (Array β) × Module => P done.2)
    as _ hm ?_
  rintro ⟨_ | bs, m⟩ hm a -
  · exact hm
  · exact hedit m a hm

/-- What adding a function and appending a draft keep, building keeps. -/
theorem build_keeps (hadd : ∀ m f, P m → P (m.add f).2)
    (happend : ∀ m f (d : Draft), P m → P (m.append f d).2) {name : String} (hnew : P { name })
    (parts : List (Function × Option Draft)) : P (build name parts).2 := by
  have hadded := each_keeps hadd hnew (parts.map (·.1))
  unfold build addWithBodies
  generalize ({ name } : Module).each add (parts.map (·.1)) = done at hadded ⊢
  obtain ⟨_ | ids, m⟩ := done
  · exact hadded
  · exact each_keeps (fun m (e : FunctionId × Draft) hm => happend m e.1 e.2 hm) hadded _

theorem WellFormed.build (name : String) (parts : List (Function × Option Draft)) :
    (build name parts).2.WellFormed :=
  build_keeps (fun _ f h => h.add f) (fun _ f d h => h.append f d) (.new name) parts

end Blueprints

end Module

end PhasedInlining
