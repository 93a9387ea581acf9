import Mathlib.Logic.Equiv.Basic
import PhasedInlining.Proofs.Code.WellFormed

/-!
# Modules that differ in their handles

Two modules are alike if they have the same functions with the same drafts of their bodies. What a
well-formed module holds beside that is determined by its handles, and these are distinct. So from
one of two alike modules the other is got by renaming handles one to one (`Alike.renames`).
-/

namespace PhasedInlining

/-- Distinct elements can be renamed to any other distinct elements. -/
theorem exists_perm_map {α : Type} [DecidableEq α] : ∀ {l l' : List α}, l.Nodup → l'.Nodup →
    l.length = l'.length → ∃ ρ : Equiv.Perm α, l.map ρ = l'
  | [], [], _, _, _ => ⟨.refl α, rfl⟩
  | a :: l, b :: l', h, h', hlen => by
    obtain ⟨ha, hl⟩ := List.nodup_cons.1 h
    obtain ⟨hb, hl'⟩ := List.nodup_cons.1 h'
    obtain ⟨ρ, hρ⟩ := exists_perm_map hl hl' (by simpa using hlen)
    refine ⟨ρ.trans (Equiv.swap (ρ a) b), ?_⟩
    have hrest : l.map (ρ.trans (Equiv.swap (ρ a) b)) = l.map ρ := by
      refine List.map_congr_left fun x hx => ?_
      refine Equiv.swap_apply_of_ne_of_ne (fun hxa => ?_) fun hxb => ?_
      · exact ha (ρ.injective hxa ▸ hx)
      · exact hb (hρ ▸ hxb ▸ List.mem_map_of_mem hx)
    rw [List.map_cons, hrest, hρ]
    simp

/-- Lists joined and renamed as a whole were renamed one by one. -/
theorem map_eq_of_flatMap {α β : Type} {ρ : β → β} {ls ls' : α → List β} : ∀ as : List α,
    (∀ a, (ls a).length = (ls' a).length) → (as.flatMap ls).map ρ = as.flatMap ls' →
    ∀ a ∈ as, (ls a).map ρ = ls' a
  | [], _, _, _, ha => by cases ha
  | a :: as, hlen, h, b, hb => by
    rw [List.flatMap_cons, List.flatMap_cons, List.map_append] at h
    obtain ⟨hhead, hrest⟩ := List.append_inj h (by rw [List.length_map, hlen])
    rcases List.mem_cons.1 hb with rfl | hb
    · exact hhead
    · exact map_eq_of_flatMap as hlen hrest b hb

namespace Body

variable {α β : Type}

theorem length_sites_draft (is : List (Instr α)) :
    (sites (draft is)).length = (sites is).length := by
  induction is with
  | nil => rfl
  | cons i is ih =>
    cases i with
    | call s t => exact congrArg (· + 1) ih
    | op t => exact ih
    | ref f => exact ih
    | ret => exact ih

theorem uses_draft (is : List (Instr α)) : uses (draft is) = uses is := by
  rw [uses, uses, draft, List.filterMap_map]
  refine List.filterMap_congr fun i _ => ?_
  cases i <;> rfl

/-- Bodies with one draft differ by a renaming that takes the handles of one to those of the
other. -/
theorem map_eq_of_draft {ρ : α → β} : ∀ {is : List (Instr α)} {js : List (Instr β)},
    draft is = draft js → (sites is).map ρ = sites js → is.map (Instr.map ρ) = js
  | [], [], _, _ => rfl
  | [], _ :: _, hd, _ | _ :: _, [], hd, _ => by simp [draft] at hd
  | i :: is, j :: js, hd, hs => by
    obtain ⟨hij, hrest⟩ := List.cons.inj hd
    cases i <;> cases j <;> simp only [Instr.map, reduceCtorEq] at hij <;> cases hij
    case call.call.refl s t s' =>
      obtain ⟨hss', hsites⟩ := List.cons.inj hs
      exact congrArg₂ _ (congrArg (Instr.call · t) hss') (map_eq_of_draft hrest hsites)
    all_goals exact congrArg (_ :: ·) (map_eq_of_draft hrest hs)

end Body

/-- The function with its handles renamed. -/
def Function.relabel (ρ : CallSiteId → CallSiteId) (g : Function) : Function :=
  { g with body := g.body.map (List.map (Instr.map ρ)) }

theorem Function.eq_relabel {ρ : CallSiteId → CallSiteId} {g g' : Function}
    (hheader : g'.header = g.header) (hbody : g.instrs.map (Instr.map ρ) = g'.instrs) :
    g' = g.relabel ρ := by
  obtain ⟨_, _, body, _, _⟩ := g
  obtain ⟨_, _, body', _, _⟩ := g'
  simp only [header, Function.mk.injEq] at hheader
  obtain ⟨rfl, rfl, hsome, rfl, rfl⟩ := hheader
  rcases body with _ | is <;> rcases body' with _ | js <;> simp at hsome
  · rfl
  · simp only [instrs, Option.getD_some] at hbody
    rw [relabel, Option.map_some, hbody]

namespace Module

/-- The functions and tables of `m'` are those of `m` with handles renamed. -/
structure Renames (ρ : Equiv.Perm CallSiteId) (m m' : Module) : Prop where
  name : m'.name = m.name
  slots : m'.slots = m.slots.map (Option.map (Function.relabel ρ))
  byName : ∀ name : String, m'.byName[name]? = m.byName[name]?
  owners : ∀ s : CallSiteId, m'.owners[ρ s]? = m.owners[s]?

/-- The two modules show the same but for their handles. -/
structure Alike (m m' : Module) : Prop where
  header : ∀ f, m'.header? f = m.header? f
  draft : ∀ f, Body.draft (m'.instrsOf f) = Body.draft (m.instrsOf f)

namespace Alike

variable {m m' : Module} (h : m.Alike m')
include h

theorem contains_eq (f : FunctionId) : m'.contains f = m.contains f :=
  contains_of_header? (h.header f)

theorem usesIn_eq (f : FunctionId) : m'.usesIn f = m.usesIn f := by
  rw [usesIn, usesIn, ← Body.uses_draft, h.draft, Body.uses_draft]

theorem remove (f : FunctionId) : (m.remove f).2.Alike (m'.remove f).2 := by
  constructor
  · intro g
    simp only [header?, function?_remove]
    split_ifs
    · rfl
    · exact h.header g
  · intro g
    simp only [instrsOf_remove]
    split_ifs
    · rfl
    · exact h.draft g

theorem length_sitesIn (f : FunctionId) : (m.sitesIn f).length = (m'.sitesIn f).length := by
  rw [sitesIn, sitesIn, ← Body.length_sites_draft, ← h.draft, Body.length_sites_draft]

theorem function?_eq {ρ : CallSiteId → CallSiteId}
    (hρ : ∀ f, (m.sitesIn f).map ρ = m'.sitesIn f) (f : FunctionId) :
    m'.function? f = (m.function? f).map (Function.relabel ρ) := by
  rcases hf' : m'.function? f with _ | g'
  · have hc := h.contains_eq f
    rcases hf : m.function? f with _ | g
    · rfl
    · simp [contains, hf, hf'] at hc
  · obtain ⟨g, hg, hgg'⟩ := function?_of_header? (h.header f) hf'
    have hbody := Body.map_eq_of_draft (h.draft f).symm (hρ f)
    rw [instrsOf_of_function? hg, instrsOf_of_function? hf'] at hbody
    rw [hg, Option.map_some, Function.eq_relabel hgg' hbody]

section WellFormed

variable (hwf : m.WellFormed) (hwf' : m'.WellFormed)
include hwf hwf'

theorem functionIds_eq : m'.functionIds = m.functionIds := by
  refine FunctionId.eq_of_mem_iff (List.pairwise_map.2 hwf'.functions_pairwise)
    (List.pairwise_map.2 hwf.functions_pairwise) fun f => ?_
  rw [hwf'.mem_functionIds, hwf.mem_functionIds, h.contains_eq]

theorem byName_eq (name : String) : m'.byName[name]? = m.byName[name]? := by
  have hiff : ∀ f, m'.byName[name]? = some f ↔ m.byName[name]? = some f := by
    intro f
    rw [hwf'.byName_iff, hwf.byName_iff]
    constructor
    · rintro ⟨g', hg', rfl⟩
      obtain ⟨g, hg, hgg'⟩ := function?_of_header? (h.header f) hg'
      exact ⟨g, hg, congrArg (·.name) hgg'.symm⟩
    · rintro ⟨g, hg, rfl⟩
      obtain ⟨g', hg', hgg'⟩ := function?_of_header? (h.header f).symm hg
      exact ⟨g', hg', congrArg (·.name) hgg'.symm⟩
  exact Option.ext fun f => hiff f

/-- The handles of alike modules correspond, body by body. -/
theorem exists_perm : ∃ ρ : Equiv.Perm CallSiteId, ∀ f, (m.sitesIn f).map ρ = m'.sitesIn f := by
  have hnodup := hwf.handles_nodup
  have hnodup' := hwf'.handles_nodup
  rw [← hwf.flatMap_sitesIn] at hnodup
  rw [← hwf'.flatMap_sitesIn, h.functionIds_eq hwf hwf'] at hnodup'
  have hlen : (m.functionIds.flatMap m.sitesIn).length
      = (m.functionIds.flatMap m'.sitesIn).length := by
    rw [List.length_flatMap, List.length_flatMap]
    simp only [h.length_sitesIn]
  obtain ⟨ρ, hρ⟩ := exists_perm_map hnodup hnodup' hlen
  refine ⟨ρ, fun f => ?_⟩
  by_cases hf : m.contains f
  · exact map_eq_of_flatMap _ h.length_sitesIn hρ f (hwf.mem_functionIds.2 hf)
  · have hf' := h.contains_eq f
    rw [Bool.not_eq_true] at hf
    rw [hf] at hf'
    simp [sitesIn, instrsOf_of_not_contains, hf, hf', Body.sites]

/-- Of alike modules with the same slots one is the other with handles renamed. -/
theorem renames (hname : m'.name = m.name) (hsize : m'.slots.size = m.slots.size) :
    ∃ ρ, m.Renames ρ m' := by
  obtain ⟨ρ, hρ⟩ := h.exists_perm hwf hwf'
  refine ⟨ρ, hname, ?_, h.byName_eq hwf hwf', fun s => ?_⟩
  · refine Array.ext_getElem? fun i => ?_
    have hi := h.function?_eq hρ ⟨i⟩
    rw [Array.getElem?_map]
    by_cases hlt : i < m.slots.size
    · have hlt' : i < m'.slots.size := by omega
      simp only [function?, Array.getElem?_eq_getElem hlt, Array.getElem?_eq_getElem hlt',
        Option.join_some] at hi
      rw [Array.getElem?_eq_getElem hlt, Array.getElem?_eq_getElem hlt', hi]
      rfl
    · rw [Array.getElem?_eq_none (by omega), Array.getElem?_eq_none (by omega)]
      rfl
  · have hiff : ∀ f, m'.owners[ρ s]? = some f ↔ m.owners[s]? = some f := by
      intro f
      rw [hwf'.owner_iff, hwf.owner_iff, ← hρ, List.mem_map_of_injective ρ.injective]
    exact Option.ext hiff

end WellFormed

end Alike

end Module

end PhasedInlining
