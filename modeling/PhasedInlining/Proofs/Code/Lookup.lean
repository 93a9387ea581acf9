import Mathlib.Tactic.SplitIfs
import PhasedInlining.Code.Splice

/-!
# Look-ups after edits

What each edit of a module does to what can be looked up in it: the function of a handle, the
instructions of a function, the owner of a call. An edit of one body leaves every other function
as it was (`function?_setBody`), and a splice is such an edit: the call found under its handle
gives way to a copy of the callee's body, or the splice was refused and nothing is different
(`splice_cases`).
-/

namespace PhasedInlining

namespace Instr

variable {α β : Type}

@[simp]
theorem site?_eq_some {i : Instr α} {s : α} : i.site? = some s ↔ ∃ t, i = .call s t := by
  cases i <;> simp [site?]

@[simp]
theorem callee?_eq_some {i : Instr α} {f : FunctionId} :
    i.callee? = some f ↔ ∃ s, i = .call s (.direct f) := by
  rcases i with _ | ⟨s, _ | _⟩ | _ | _ <;> simp [callee?, CallTarget.callee?]

theorem used?_eq_some {i : Instr α} {f : FunctionId} :
    i.used? = some f ↔ (∃ s, i = .call s (.direct f)) ∨ i = .ref f := by
  rcases i with _ | ⟨s, _ | _⟩ | _ | _ <;> simp [used?, CallTarget.callee?]

end Instr

namespace Body

variable {α β : Type}

@[simp]
theorem sites_append (is js : List (Instr α)) : sites (is ++ js) = sites is ++ sites js :=
  List.filterMap_append

@[simp]
theorem sites_call_cons (s : α) (t : CallTarget) (is : List (Instr α)) :
    sites (.call s t :: is) = s :: sites is := rfl

theorem mem_sites {is : List (Instr α)} {s : α} : s ∈ sites is ↔ ∃ t, .call s t ∈ is := by
  simp only [sites, List.mem_filterMap, Instr.site?_eq_some]
  constructor
  · rintro ⟨_, hi, t, rfl⟩
    exact ⟨t, hi⟩
  · rintro ⟨t, hi⟩
    exact ⟨_, hi, t, rfl⟩

theorem mem_uses {is : List (Instr α)} {f : FunctionId} :
    f ∈ uses is ↔ (∃ s, .call s (.direct f) ∈ is) ∨ .ref f ∈ is := by
  simp only [uses, List.mem_filterMap, Instr.used?_eq_some]
  constructor
  · rintro ⟨_, hi, ⟨s, rfl⟩ | rfl⟩
    · exact .inl ⟨s, hi⟩
    · exact .inr hi
  · rintro (⟨s, hi⟩ | hi)
    · exact ⟨_, hi, .inl ⟨s, rfl⟩⟩
    · exact ⟨_, hi, .inr rfl⟩

@[simp]
theorem callees_append (is js : List (Instr α)) : callees (is ++ js) = callees is ++ callees js :=
  List.filterMap_append

@[simp]
theorem callees_call_cons (s : α) (f : FunctionId) (is : List (Instr α)) :
    callees (.call s (.direct f) :: is) = f :: callees is := rfl

theorem mem_callees {is : List (Instr α)} {f : FunctionId} :
    f ∈ callees is ↔ ∃ x, .call x (.direct f) ∈ is := by
  simp only [callees, List.mem_filterMap, Instr.callee?_eq_some]
  constructor
  · rintro ⟨_, hi, x, rfl⟩
    exact ⟨x, hi⟩
  · rintro ⟨x, hi⟩
    exact ⟨_, hi, x, rfl⟩

@[simp]
theorem callCount_withoutReturns (is : List (Instr α)) :
    callCount (withoutReturns is) = callCount is := by
  simp only [callCount, withoutReturns, List.countP_filter]
  exact List.countP_congr fun i _ => by cases i <;> simp [Instr.isCall, Instr.isRet]

@[simp]
theorem callees_issue (next : Nat) (is : List (Instr α)) :
    callees (issue next is) = callees is := by
  have hdraft : ∀ {β : Type} (js : List (Instr β)), callees (draft js) = callees js := by
    intro β js
    simp only [callees, draft, List.filterMap_map]
    congr 1
    funext i
    cases i <;> rfl
  rw [← hdraft, draft_issue, hdraft]

@[simp]
theorem callees_withoutReturns (is : List (Instr α)) :
    callees (withoutReturns is) = callees is := by
  simp only [callees, withoutReturns, List.filterMap_filter]
  congr 1
  funext i
  cases i <;> rfl

/-- The copies of a body's instructions are its instructions with other handles. -/
theorem mem_issue {next : Nat} : ∀ {is : List (Instr α)} {n : Nat} {t : CallTarget},
    .call ⟨n⟩ t ∈ issue next is → ∃ s, .call s t ∈ is
  | .op _ :: _, _, _, h | .ref _ :: _, _, _, h | .ret :: _, _, _, h => by
    simp only [issue, List.mem_cons, reduceCtorEq, false_or] at h
    obtain ⟨s, hs⟩ := mem_issue h
    exact ⟨s, List.mem_cons_of_mem _ hs⟩
  | .call s _ :: _, _, _, h => by
    simp only [issue, List.mem_cons, Instr.call.injEq] at h
    rcases h with ⟨-, rfl⟩ | h
    · exact ⟨s, List.mem_cons_self⟩
    · obtain ⟨s, hs⟩ := mem_issue h
      exact ⟨s, List.mem_cons_of_mem _ hs⟩

theorem replaceCall_split {s : CallSiteId} {t : CallTarget} {pre post : Body}
    (h : s ∉ sites pre) (is : Body) :
    replaceCall s is (pre ++ .call s t :: post) = pre ++ is ++ post := by
  have hpre : ∀ i ∈ pre, (i.site? != some s) = true := by
    intro i hi
    simp only [bne_iff_ne, ne_eq, Instr.site?_eq_some]
    rintro ⟨t', rfl⟩
    exact h (mem_sites.2 ⟨t', hi⟩)
  simp only [replaceCall]
  rw [List.takeWhile_append_of_pos hpre, List.dropWhile_append_of_pos hpre]
  simp [Instr.site?]

end Body

namespace Function

/-- A function with its instructions left out. -/
def header (f : Function) : Function := { f with body := f.body.map fun _ => [] }

variable {f g : Function}

theorem flags_of_header (h : f.header = g.header) : f.flags = g.flags := by
  have : f.header.flags = g.header.flags := by rw [h]
  exact this

theorem hasBody_of_header (h : f.header = g.header) : f.hasBody = g.hasBody := by
  have := congrArg Function.hasBody h
  simpa [header, hasBody] using this

theorem isInlinable_of_header (h : f.header = g.header) : f.isInlinable = g.isInlinable := by
  unfold isInlinable
  rw [hasBody_of_header h, flags_of_header h]

end Function

namespace Module

variable {m : Module}

section Function

theorem slots_eq_iff {i : Nat} {g : Function} :
    m.slots[i]? = some (some g) ↔ m.function? ⟨i⟩ = some g := by
  rcases h : m.slots[i]? with _ | _ | g' <;> simp [function?, h]

theorem contains_iff {f : FunctionId} : m.contains f ↔ ∃ g, m.function? f = some g := by
  simp [contains, Option.isSome_iff_exists]

theorem instrsOf_of_function? {f : FunctionId} {g : Function} (h : m.function? f = some g) :
    m.instrsOf f = g.instrs := by
  simp [instrsOf, h]

theorem instrsOf_of_not_contains {f : FunctionId} (h : m.contains f = false) :
    m.instrsOf f = [] := by
  simp only [contains, Option.isSome_eq_false_iff, Option.isNone_iff_eq_none] at h
  simp [instrsOf, h]

/-- Whatever stands in a body stands in the body of a function that is there. -/
theorem contains_of_mem {f : FunctionId} {i : Instr CallSiteId} (h : i ∈ m.instrsOf f) :
    m.contains f := by
  rcases hc : m.contains f with _ | _
  · rw [instrsOf_of_not_contains hc] at h
    cases h
  · rfl

theorem hasBody_of_mem {f : FunctionId} {i : Instr CallSiteId} (h : i ∈ m.instrsOf f) :
    m.hasBody f := by
  obtain ⟨g, hg⟩ := contains_iff.1 (contains_of_mem h)
  rw [instrsOf_of_function? hg, Function.instrs] at h
  rcases hb : g.body with _ | b
  · simp [hb] at h
  · simp [hasBody, hg, Function.hasBody, hb]

theorem contains_of_hasBody {f : FunctionId} (h : m.hasBody f) : m.contains f := by
  rcases hf : m.function? f with _ | g <;> simp_all [hasBody, contains]

end Function

section Header

/-- All of a function but its instructions, and whether it has any. -/
def header? (m : Module) (f : FunctionId) : Option Function :=
  (m.function? f).map Function.header

variable {m' : Module} {f : FunctionId}

theorem contains_of_header? (h : m'.header? f = m.header? f) : m'.contains f = m.contains f := by
  have := congrArg Option.isSome h
  simpa [header?, contains] using this

theorem function?_of_header? (h : m'.header? f = m.header? f) {g' : Function}
    (hg' : m'.function? f = some g') : ∃ g, m.function? f = some g ∧ g'.header = g.header := by
  rw [header?, header?, hg', Option.map_some, eq_comm, Option.map_eq_some_iff] at h
  obtain ⟨g, hg, hh⟩ := h
  exact ⟨g, hg, hh.symm⟩

end Header

section Edits

theorem owners_foldl_insert (owner : FunctionId) (s : CallSiteId) :
    ∀ (n next : Nat) (o : Std.TreeMap CallSiteId FunctionId),
      ((List.range' next n).foldl (fun o k => o.insert ⟨k⟩ owner) o)[s]?
        = if next ≤ s.value ∧ s.value < next + n then some owner else o[s]?
  | 0, next, o => by
    rw [if_neg (by omega)]
    rfl
  | n + 1, next, o => by
    have hs : (⟨next⟩ : CallSiteId) = s ↔ next = s.value := by
      cases s
      simp
    rw [List.range'_succ, List.foldl_cons, owners_foldl_insert owner s n,
      Std.TreeMap.getElem?_insert]
    simp only [Std.LawfulEqCmp.compare_eq_iff_eq, hs]
    split_ifs <;> first | rfl | omega

/-- Handles just issued belong to the function they were issued for. -/
theorem owners_issueSites (f : FunctionId) (n : Nat) (s : CallSiteId) :
    (m.issueSites f n).owners[s]?
      = if m.nextSite ≤ s.value ∧ s.value < m.nextSite + n then some f else m.owners[s]? :=
  owners_foldl_insert f s n m.nextSite m.owners

theorem function?_setBody (f : FunctionId) (body : Body) (g : FunctionId) :
    (m.setBody f body).function? g
      = if g = f then (m.function? f).map fun h => { h with body := some body }
        else m.function? g := by
  have hg : f.index = g.index ↔ g = f := by
    cases f; cases g
    simp [eq_comm]
  simp only [function?, setBody, Array.getElem?_modify, hg]
  split_ifs with h
  · subst h
    rcases m.slots[g.index]? with _ | _ | _ <;> rfl
  · rfl

theorem instrsOf_setBody {f : FunctionId} (hf : m.contains f) (body : Body) (g : FunctionId) :
    (m.setBody f body).instrsOf g = if g = f then body else m.instrsOf g := by
  obtain ⟨h, hh⟩ := contains_iff.1 hf
  simp only [instrsOf, function?_setBody]
  split_ifs with hg
  · simp [hh, Function.instrs]
  · rfl

theorem function?_push (f : Function) (g : FunctionId) :
    (m.push f).2.function? g = if g = ⟨m.slots.size⟩
      then some { f with
        id := ⟨m.slots.size⟩
        body := f.body.map (Body.issue m.nextSite) }
      else m.function? g := by
  obtain ⟨i⟩ := g
  simp only [push, function?, issueSites, Array.getElem?_push, FunctionId.mk.injEq]
  split_ifs <;> rfl

theorem instrsOf_push (f : Function) (g : FunctionId) :
    (m.push f).2.instrsOf g
      = if g = ⟨m.slots.size⟩ then Body.issue m.nextSite f.instrs else m.instrsOf g := by
  simp only [instrsOf, function?_push]
  split_ifs with hg
  · rcases hb : f.body with _ | _ <;> simp [Function.instrs, hb, Body.issue]
  · rfl

/-- A function that is added goes into a new slot, unless it is refused. -/
theorem add_cases (m : Module) (f : Function) : (m.add f).2 = m
    ∨ m.byName.contains f.name = false ∧ (m.add f).2 = (m.push f).2 := by
  unfold add
  rcases hf : m.addFault? f with _ | fault
  · refine .inr ⟨?_, rfl⟩
    unfold addFault? at hf
    split_ifs at hf with hname
    simpa only [Bool.not_eq_true] using hname
  · exact .inl rfl

/-- What is appended to a body, as far as handles are left for it, gets new handles. -/
theorem append_cases {α : Type} (m : Module) (f : FunctionId) (is : List (Instr α)) :
    (m.append f is).2 = m ∨ m.contains f ∧ ∃ new : List (Instr α),
      (m.append f is).2 = (m.issueSites f (Body.callCount new)).setBody f
        (m.instrsOf f ++ Body.issue m.nextSite new) := by
  unfold append
  split_ifs with hf
  · refine .inr ⟨hf, Body.takeCalls (maxNumber - m.nextSite) is, ?_⟩
    simp only []
    split_ifs <;> rfl
  · exact .inl rfl

theorem function?_remove (f g : FunctionId) :
    (m.remove f).2.function? g = if g = f then none else m.function? g := by
  have hg : f.index = g.index ↔ g = f := by
    cases f; cases g
    simp [eq_comm]
  unfold remove
  rcases hf : m.function? f with _ | h
  · simp only []
    split_ifs with h
    · rw [h, hf]
    · rfl
  · simp only [function?, Array.getElem?_setIfInBounds, hg]
    split_ifs <;> rfl

@[simp]
theorem nextSite_remove (f : FunctionId) : (m.remove f).2.nextSite = m.nextSite := by
  unfold remove
  split <;> rfl

theorem instrsOf_remove (f g : FunctionId) :
    (m.remove f).2.instrsOf g = if g = f then [] else m.instrsOf g := by
  simp only [instrsOf, function?_remove]
  split_ifs <;> rfl

theorem contains_remove (f g : FunctionId) :
    (m.remove f).2.contains g = (m.contains g && decide (g ≠ f)) := by
  simp only [contains, function?_remove]
  split_ifs with h <;> simp [h]

end Edits

section Splice

/-- The call found under a handle is the first one that carries it. -/
theorem callAt?_eq_some {s : CallSiteId} {f : FunctionId} {t : CallTarget} :
    m.callAt? s = some (f, t) ↔ m.owners[s]? = some f ∧
      ∃ pre post, m.instrsOf f = pre ++ .call s t :: post ∧ s ∉ Body.sites pre := by
  simp only [callAt?, Option.bind_eq_bind, Option.bind_eq_some_iff, List.findSome?_eq_some_iff]
  constructor
  · rintro ⟨f', ho, pre, i, post, hbody, hi, hpre⟩
    rcases i with _ | ⟨s', t'⟩ | _ | _ <;> simp at hi
    obtain ⟨rfl, rfl, rfl⟩ := hi
    refine ⟨ho, pre, post, hbody, fun hs => ?_⟩
    obtain ⟨t, ht⟩ := Body.mem_sites.1 hs
    simpa using hpre _ ht
  · rintro ⟨ho, pre, post, hbody, hs⟩
    refine ⟨f, ho, pre, _, post, hbody, by simp, fun i hi => ?_⟩
    rcases i with _ | ⟨s', t'⟩ | _ | _ <;> simp
    rintro rfl
    exact hs (Body.mem_sites.2 ⟨t', hi⟩)

theorem currentCallee?_eq_some {s : CallSiteId} {c : FunctionId} :
    m.currentCallee? s = some c ↔ ∃ f, m.callAt? s = some (f, .direct c) := by
  simp only [currentCallee?, Option.bind_eq_some_iff, Prod.exists]
  constructor
  · rintro ⟨f, t, h, ht⟩
    cases t <;> simp [CallTarget.callee?] at ht
    subst ht
    exact ⟨f, h⟩
  · rintro ⟨f, h⟩
    exact ⟨f, _, h, rfl⟩

/-- When a call can be replaced: it is a direct call of another function, with a body that may be
copied and handles left for the copy. -/
theorem spliceable_ok {s : CallSiteId} {f : FunctionId} {g : Function} :
    m.spliceable s = .ok (f, g) ↔ ∃ c, m.callAt? s = some (f, .direct c) ∧ c ≠ f
      ∧ m.function? c = some g ∧ g.hasBody ∧ g.flags.noInline = false
      ∧ m.hasRoomFor (Body.callCount g.instrs) := by
  unfold spliceable
  constructor
  · intro h
    split at h
    · cases h
    · cases h
    · rename_i caller c hs
      split_ifs at h with hc
      split at h
      · cases h
      · rename_i g' hg
        split_ifs at h with h1 h2 h3
        simp only [Except.ok.injEq, Prod.mk.injEq] at h
        obtain ⟨rfl, rfl⟩ := h
        simp only [Bool.not_eq_eq_eq_not, Bool.not_true, Bool.not_eq_false, Bool.not_eq_true]
          at h1 h2 h3
        exact ⟨c, hs, hc, hg, h1, h2, h3⟩
  · rintro ⟨c, hs, hc, hg, h1, h2, h3⟩
    simp [hs, hc, hg, h1, h2, h3]

/-- A direct call of another function, with a body that may be copied, is refused only for want of
handles. -/
theorem exhausted_of_refused {s : CallSiteId} {f c : FunctionId} {g : Function} {r : Refusal}
    (hcall : m.callAt? s = some (f, .direct c)) (hne : c ≠ f) (hg : m.function? c = some g)
    (hbody : g.hasBody) (hno : g.flags.noInline = false) (h : m.spliceable s = .error r) :
    r = .exhausted ∧ m.hasRoomFor (Body.callCount g.instrs) = false := by
  rcases hroom : m.hasRoomFor (Body.callCount g.instrs) with _ | _
  · refine ⟨?_, rfl⟩
    simpa [spliceable, hcall, hne, hg, hbody, hno, hroom] using h.symm
  · have hok := spliceable_ok.2 ⟨c, hcall, hne, hg, hbody, hno, hroom⟩
    cases h.symm.trans hok

/-- `m'` is `m` with the call `s` of `caller` replaced by a copy of the body of `callee`, which is
`g`. -/
structure Splices (m : Module) (s : CallSiteId) (m' : Module) (caller callee : FunctionId)
    (g : Function) : Prop where
  callee_eq : m.function? callee = some g
  ne : callee ≠ caller
  hasBody : g.hasBody
  noInline : g.flags.noInline = false
  body : ∃ pre post, m.instrsOf caller = pre ++ .call s (.direct callee) :: post
    ∧ s ∉ Body.sites pre
    ∧ m'.instrsOf caller = pre ++ Body.issue m.nextSite (Body.withoutReturns g.instrs) ++ post
  caller_eq : ∃ h, m.function? caller = some h
    ∧ m'.function? caller = some { h with body := some (m'.instrsOf caller) }
  other : ∀ f, f ≠ caller → m'.function? f = m.function? f
  nextSite : m'.nextSite = m.nextSite + Body.callCount g.instrs

theorem splice_cases (m : Module) (s : CallSiteId) :
    (∃ r, m.spliceable s = .error r ∧ m.splice s = (some r, m))
      ∨ ∃ caller callee g, m.spliceable s = .ok (caller, g)
        ∧ m.callAt? s = some (caller, .direct callee) ∧ (m.splice s).1 = none
        ∧ m.Splices s (m.splice s).2 caller callee g := by
  unfold splice
  rcases hs : m.spliceable s with r | ⟨f, g⟩
  · exact .inl ⟨r, rfl, rfl⟩
  obtain ⟨c, hcall, hne, hg, hbody, hno, -⟩ := spliceable_ok.1 hs
  obtain ⟨-, pre, post, hsplit, hpre⟩ := callAt?_eq_some.1 hcall
  have hlive : m.contains f := contains_of_mem (i := .call s (.direct c)) (by simp [hsplit])
  have hfun : ∀ k, (m.spliceBody s f g).function? k = (m.setBody f (Body.replaceCall s
      (Body.issue m.nextSite (Body.withoutReturns g.instrs)) (m.instrsOf f))).function? k :=
    fun _ => rfl
  have hf : (m.spliceBody s f g).instrsOf f
      = pre ++ Body.issue m.nextSite (Body.withoutReturns g.instrs) ++ post := by
    rw [instrsOf, hfun, ← instrsOf, instrsOf_setBody hlive, if_pos rfl, hsplit,
      Body.replaceCall_split hpre]
  obtain ⟨h, hh⟩ := contains_iff.1 hlive
  refine .inr ⟨f, c, g, rfl, hcall, rfl, hg, hne, hbody, hno, ⟨pre, post, hsplit, hpre, hf⟩,
    ⟨h, hh, ?_⟩, fun k hk => ?_, ?_⟩
  · rw [hf, hfun, function?_setBody, if_pos rfl, hh, hsplit, Body.replaceCall_split hpre]
    rfl
  · rw [hfun, function?_setBody, if_neg hk]
  · simp [spliceBody, setBody, issueSites]

theorem owners_splice {s : CallSiteId} {caller : FunctionId} {g : Function}
    (h : m.spliceable s = .ok (caller, g)) (x : CallSiteId) :
    (m.splice s).2.owners[x]? = if x = s then none
      else if m.nextSite ≤ x.value ∧ x.value < m.nextSite + Body.callCount g.instrs
        then some caller else m.owners[x]? := by
  have howners : (m.splice s).2.owners
      = (m.issueSites caller (Body.callCount g.instrs)).owners.erase s := by
    simp [splice, h, spliceBody, setBody]
  rw [howners, Std.TreeMap.getElem?_erase, owners_issueSites]
  simp only [Std.LawfulEqCmp.compare_eq_iff_eq, eq_comm (a := s)]

namespace Splices

variable {m' : Module} {s : CallSiteId} {caller callee : FunctionId} {g : Function}

theorem instrsOf_other (h : m.Splices s m' caller callee g) {f : FunctionId} (hf : f ≠ caller) :
    m'.instrsOf f = m.instrsOf f := by
  rw [instrsOf, h.other f hf, ← instrsOf]

/-- A splice changes nothing of a function but its instructions. -/
theorem header?_eq (h : m.Splices s m' caller callee g) (f : FunctionId) :
    m'.header? f = m.header? f := by
  by_cases hf : f = caller
  · subst hf
    obtain ⟨k, hk, hk'⟩ := h.caller_eq
    obtain ⟨pre, post, hbody, -, -⟩ := h.body
    rw [header?, header?, hk, hk']
    rcases hb : k.body with _ | b
    · simp [instrsOf, hk, Function.instrs, hb] at hbody
    · simp [Function.header, hb]
  · rw [header?, header?, h.other f hf]

end Splices

end Splice

end Module

end PhasedInlining
