import PhasedInlining.Proofs.Lowering.Acyclic
import PhasedInlining.Proofs.Lowering.Bypass

/-!
# Full expansion

Lowering replaces calls by the bodies they go to, those of the functions that may be copied. What a
body has then become is an expansion of what it was (`Expands`), whichever calls were replaced and
in whatever order, and there is one expansion only in which no such call is left (`Expands.unique`).
So two ways of inlining a phase agree up to handles if both keep to expansions (`Inlined`) and both
leave nothing to inline (`Flattens`). Both keep the call cycles as well, but for functions of the
phase that are bypassed.

Inlining callees first is such a way where there are no call cycles (`flattens_bottomUp`).
-/

namespace PhasedInlining

open CallSource Target
open Relation (TransGen)

namespace Body

variable {α : Type}

theorem mem_draft {is : List (Instr α)} {t : CallTarget} :
    .call () t ∈ draft is ↔ ∃ x, .call x t ∈ is := by
  simp only [draft, List.mem_map]
  constructor
  · rintro ⟨i, hi, heq⟩
    rcases i with _ | ⟨x, t'⟩ | _ | _ <;> simp [Instr.map] at heq
    exact ⟨x, heq ▸ hi⟩
  · rintro ⟨x, hx⟩
    exact ⟨_, hx, rfl⟩

theorem draft_withoutReturns (is : List (Instr α)) :
    draft (withoutReturns is) = withoutReturns (draft is) := by
  simp only [draft, withoutReturns, List.filter_map]
  congr 1
  refine List.filter_congr fun i _ => ?_
  cases i <;> rfl

@[simp]
theorem withoutReturns_append (is js : List (Instr α)) :
    withoutReturns (is ++ js) = withoutReturns is ++ withoutReturns js :=
  List.filter_append ..

@[simp]
theorem withoutReturns_withoutReturns (is : List (Instr α)) :
    withoutReturns (withoutReturns is) = withoutReturns is := by
  simp [withoutReturns]

end Body

/-- The second body is the first with some calls of functions in `P` replaced by expansions of the
bodies that `body` gives. -/
inductive Expands (P : FunctionId → Prop) (body : FunctionId → Draft) : Draft → Draft → Prop
  | nil : Expands P body [] []
  | keep (i : Instr Unit) {is js : Draft} : Expands P body is js →
    Expands P body (i :: is) (i :: js)
  | copy {f : FunctionId} {is js ks : Draft} (hf : P f) : Expands P body (body f) ks →
    Expands P body is js → Expands P body (.call () (.direct f) :: is) (ks ++ js)

namespace Expands

variable {P : FunctionId → Prop} {body : FunctionId → Draft} {is js ks ls : Draft}

theorem refl : ∀ is : Draft, Expands P body is is
  | [] => .nil
  | i :: is => .keep i (refl is)

theorem append (h : Expands P body is js) (h' : Expands P body ks ls) :
    Expands P body (is ++ ks) (js ++ ls) := by
  induction h with
  | nil => exact h'
  | keep i _ ih => exact .keep i ih
  | copy hf hbody _ _ ih =>
    rw [List.append_assoc]
    exact .copy hf hbody ih

theorem split : ∀ {is ls : Draft}, Expands P body (is ++ js) ls →
    ∃ ls₁ ls₂, ls = ls₁ ++ ls₂ ∧ Expands P body is ls₁ ∧ Expands P body js ls₂
  | [], ls, h => ⟨[], ls, rfl, .nil, h⟩
  | i :: is, _, h => by
    cases h with
    | keep _ h =>
      obtain ⟨ls₁, ls₂, rfl, h₁, h₂⟩ := split h
      exact ⟨i :: ls₁, ls₂, rfl, .keep i h₁, h₂⟩
    | @copy f _ _ ks hf hbody h =>
      obtain ⟨ls₁, ls₂, rfl, h₁, h₂⟩ := split h
      exact ⟨ks ++ ls₁, ls₂, (List.append_assoc ..).symm, .copy hf hbody h₁, h₂⟩

theorem trans (h : Expands P body is js) (h' : Expands P body js ks) : Expands P body is ks := by
  induction h generalizing ks with
  | nil => exact h'
  | keep i _ ih =>
    cases h' with
    | keep _ h' => exact .keep i (ih h')
    | copy hf hbody h' => exact .copy hf hbody (ih h')
  | copy hf _ _ ihbody ih =>
    obtain ⟨ls₁, ls₂, rfl, h₁, h₂⟩ := split h'
    exact .copy hf (ihbody h₁) (ih h₂)

/-- Copies lose their returns, before or after their own calls are replaced. -/
theorem withoutReturns (hbody : ∀ f, Body.withoutReturns (body f) = body f)
    (h : Expands P body is js) :
    Expands P body (Body.withoutReturns is) (Body.withoutReturns js) := by
  induction h with
  | nil => exact .nil
  | keep i _ ih => cases i <;> first | exact ih | exact .keep _ ih
  | @copy f _ _ _ hf _ _ ihcopy ih =>
    rw [Body.withoutReturns_append]
    rw [hbody] at ihcopy
    exact .copy hf ihcopy ih

/-- There is one expansion that cannot be expanded further. -/
theorem unique (h : Expands P body is js) (h' : Expands P body is ks)
    (hjs : ∀ f, P f → .call () (.direct f) ∉ js) (hks : ∀ f, P f → .call () (.direct f) ∉ ks) :
    js = ks := by
  induction h generalizing ks with
  | nil =>
    cases h'
    rfl
  | keep i _ ih =>
    cases h' with
    | keep _ h' =>
      rw [ih h' (fun f hf hmem => hjs f hf (List.mem_cons_of_mem _ hmem))
        fun f hf hmem => hks f hf (List.mem_cons_of_mem _ hmem)]
    | copy hf _ _ => exact absurd List.mem_cons_self (hjs _ hf)
  | copy hf _ _ ihcopy ih =>
    cases h' with
    | keep _ _ => exact absurd List.mem_cons_self (hks _ hf)
    | copy _ hcopy h' =>
      rw [ihcopy hcopy (fun f hf hmem => hjs f hf (List.mem_append_left _ hmem))
          fun f hf hmem => hks f hf (List.mem_append_left _ hmem),
        ih h' (fun f hf hmem => hjs f hf (List.mem_append_right _ hmem))
          fun f hf hmem => hks f hf (List.mem_append_right _ hmem)]

end Expands

namespace Module

/-- Lowering the phase replaces calls of `f`. -/
def Inlinable (phase : Nat) (m : Module) (f : FunctionId) : Prop :=
  isMarked phase m f = .ok true ∧ ∃ g, m.function? f = some g ∧ g.isInlinable

/-- What replaces a call of `f`. -/
def copyOf (m : Module) (f : FunctionId) : Draft := Body.withoutReturns (Body.draft (m.instrsOf f))

theorem Inlinable.hasBody {phase : Nat} {m : Module} {f : FunctionId} (h : m.Inlinable phase f) :
    m.hasBody f := by
  obtain ⟨-, g, hg, hgi⟩ := h
  simp only [Function.isInlinable, Bool.and_eq_true] at hgi
  simp [Module.hasBody, hg, hgi.1]

/-- A splice expands the caller by what the callee has been expanded to. -/
theorem Splices.expands {P : FunctionId → Prop} {m₀ m m' : Module} {site : CallSiteId}
    {f c : FunctionId} {g : Function} (hs : m.Splices site m' f c g) (hc : P c)
    (hcallee : Expands P m₀.copyOf (Body.draft (m₀.instrsOf c)) (Body.draft (m.instrsOf c)))
    (hcaller : Expands P m₀.copyOf (Body.draft (m₀.instrsOf f)) (Body.draft (m.instrsOf f))) :
    Expands P m₀.copyOf (Body.draft (m₀.instrsOf f)) (Body.draft (m'.instrsOf f)) := by
  obtain ⟨pre, post, hbody, -, hbody'⟩ := hs.body
  have hcopy : Expands P m₀.copyOf (m₀.copyOf c) (Body.withoutReturns (Body.draft g.instrs)) := by
    have := hcallee.withoutReturns fun _ => Body.withoutReturns_withoutReturns _
    rwa [instrsOf_of_function? hs.callee_eq] at this
  rw [hbody, Body.draft_append] at hcaller
  rw [hbody', Body.draft_append, Body.draft_append, Body.draft_issue,
    Body.draft_withoutReturns, List.append_assoc]
  exact hcaller.trans ((Expands.refl _).append (.copy hc hcopy (.refl _)))

end Module

/-- `m` is `m₀` with calls of functions of the phase replaced. -/
structure Inlined (phase : Nat) (m₀ m : Module) : Prop where
  wf : m.WellFormed
  header : ∀ f, m.header? f = m₀.header? f
  expands : ∀ f, Expands (m₀.Inlinable phase) m₀.copyOf (Body.draft (m₀.instrsOf f))
    (Body.draft (m.instrsOf f))
  cycles : KeepsCycles (m₀.Inlinable phase) m₀.Calls m.Calls

namespace Inlined

variable {phase : Nat} {m₀ m m' : Module}

theorem refl (h : m₀.WellFormed) : Inlined phase m₀ m₀ :=
  ⟨h, fun _ => rfl, fun _ => .refl _, .refl _⟩

theorem reaches (h : Inlined phase m₀ m) {f c : FunctionId} {x : CallSiteId}
    (hx : .call x (.direct c) ∈ m.instrsOf f) (hc : m₀.hasBody c) : TransGen m₀.Calls f c := by
  rw [← Module.hasBody_of_header? (h.header c)] at hc
  exact h.cycles.within ⟨hc, x, hx⟩

theorem inlinable (h : Inlined phase m₀ m) {site : CallSiteId} {f c : FunctionId} {g : Function}
    (hs : m.Splices site m' f c g) (hmarked : isMarked phase m₀ c = .ok true) :
    m₀.Inlinable phase c := by
  obtain ⟨g₀, hg₀, hgg₀⟩ := Module.function?_of_header? (h.header c) hs.callee_eq
  refine ⟨hmarked, g₀, hg₀, ?_⟩
  rw [← Function.isInlinable_of_header hgg₀]
  simp [Function.isInlinable, hs.hasBody, hs.noInline]

theorem splice (h : Inlined phase m₀ m) {site : CallSiteId} {f c : FunctionId} {g : Function}
    (hs : m.Splices site m' f c g) (hwf : m'.WellFormed)
    (hmarked : isMarked phase m₀ c = .ok true) : Inlined phase m₀ m' := by
  have hinlinable := h.inlinable hs hmarked
  refine ⟨hwf, fun k => (hs.header?_eq k).trans (h.header k), fun k => ?_,
    h.cycles.trans (hs.bypasses.keepsCycles hinlinable)⟩
  by_cases hk : k = f
  · subst hk
    exact hs.expands hinlinable (h.expands c) (h.expands k)
  · rw [hs.instrsOf_other hk]
    exact h.expands k

theorem isMarked_eq (h : Inlined phase m₀ m) (f : FunctionId) :
    isMarked phase m f = isMarked phase m₀ f :=
  Module.isMarked_of_header? (h.header f) phase

theorem noInline_eq (h : Inlined phase m₀ m) {c : FunctionId} (hc : m₀.Inlinable phase c)
    {g : Function} (hg : m.function? c = some g) : g.flags.noInline = false := by
  obtain ⟨-, g₀, hg₀, hgi⟩ := hc
  obtain ⟨g₁, hg₁, hgg₁⟩ := Module.function?_of_header? (h.header c) hg
  cases hg₀.symm.trans hg₁
  simp only [Function.isInlinable, Bool.and_eq_true, Bool.not_eq_true'] at hgi
  rw [Function.flags_of_header hgg₁, hgi.2]

theorem attempt {s : Inlining Module} {c : FunctionId} (h : Inlined phase m₀ s.target)
    (hmarked : isMarked phase m₀ c = .ok true) (call : FunctionId × CallSiteId) :
    Inlined phase m₀ (s.attempt phase c call).target := by
  have hwf : (s.attempt phase c call).target.WellFormed :=
    Inlining.attempt_keeps (fun t x ht => t.target_inline x ▸ ht.splice x) c s call h.wf
  cases Inlining.attempt_cases phase c s call with
  | stale _ target _ => rwa [target]
  | refused _ _ _ target _ _ => rwa [target]
  | done f g _ hs => exact h.splice hs hwf hmarked

theorem visit {s : Inlining Module} (h : Inlined phase m₀ s.target) (snapshot : Snapshot)
    (c : FunctionId) :
    Ends (fun s' : Inlining Module => Inlined phase m₀ s'.target) (fun _ => True)
      (s.visit phase snapshot c) := by
  refine (Run.check_ends (P := fun _ => True) trivial _).map fun marked hm => ?_
  cases marked with
  | false => exact h
  | true =>
    rw [h.isMarked_eq] at hm
    exact List.foldlRecOn (motive := fun s : Inlining Module => Inlined phase m₀ s.target) _ _ h
      fun s hs call _ => hs.attempt hm call

end Inlined

/-- `m` is `m₀` with all calls of functions of the phase replaced that may be, but for those that
were refused for want of handles. -/
structure Flattens (phase : Nat) (m₀ m : Module) (log : EventLog) : Prop
    extends Inlined phase m₀ m where
  left : ∀ {f c x}, .call x (.direct c) ∈ m.instrsOf f → m₀.Inlinable phase c → log.Starved c

/-- Where handles do not run out, two ways of replacing all calls agree up to handles. -/
theorem Flattens.draft_eq {phase : Nat} {m₀ m m' : Module} {log log' : EventLog}
    (h : Flattens phase m₀ m log) (h' : Flattens phase m₀ m' log') (hroom : ∀ f, ¬ log.Starved f)
    (hroom' : ∀ f, ¬ log'.Starved f) (f : FunctionId) :
    Body.draft (m.instrsOf f) = Body.draft (m'.instrsOf f) := by
  refine (h.expands f).unique (h'.expands f) (fun c hc hmem => ?_) fun c hc hmem => ?_
  · obtain ⟨x, hx⟩ := Body.mem_draft.1 hmem
    exact hroom c (h.left hx hc)
  · obtain ⟨x, hx⟩ := Body.mem_draft.1 hmem
    exact hroom' c (h'.left hx hc)

theorem inlined_bottomUp {phase : Nat} {r r' : Run Module} {report : InlineReport}
    (hwf : r.target.WellFormed)
    (h : bottomUp phase (Snapshot.ofSource r.target) r = .ok (r', report)) :
    Inlined phase r.target r'.target := by
  obtain ⟨s, hfold, heq⟩ := map_eq_ok.1 h
  cases heq
  have hinlined := ends_foldlM (P := fun s : Inlining Module => Inlined phase r.target s.target)
    (b := { r with }) r.target.visitOrder
    (fun s c _ hs => hs.visit (Snapshot.ofSource r.target) c) (.refl hwf)
  rwa [hfold] at hinlined

/-- Without call cycles, inlining callees first replaces all calls that may be. -/
theorem flattens_bottomUp {phase : Nat} {r r' : Run Module} {report : InlineReport}
    (hwf : r.target.WellFormed) (hacyclic : ∀ f, ¬ TransGen r.target.Calls f f)
    (h : bottomUp phase (Snapshot.ofSource r.target) r = .ok (r', report)) :
    Flattens phase r.target r'.target r'.log := by
  have hinlined := inlined_bottomUp hwf h
  obtain ⟨s, hfold, heq⟩ := map_eq_ok.1 h
  cases heq
  have hvisited : Visited phase r.target r.target.visitOrder s.target s.log :=
    visited_foldlM hwf rfl hfold
  refine ⟨hinlined, fun {f c x} hx hc => ?_⟩
  have hready : c ∈ r.target.visitOrder := by
    refine (hwf.hasBody_iff_drained.1 hc.hasBody).resolve_right fun hu => ?_
    obtain ⟨-, d, -, hd⟩ := hwf.mem_unresolved.1 hu
    exact hacyclic d hd
  rcases hvisited.stuck hx hready hc.1 with ⟨g, hg, hno⟩ | ⟨-, hstarved⟩
  · cases hno.symm.trans (hinlined.noInline_eq hc hg)
  · exact hstarved

end PhasedInlining
