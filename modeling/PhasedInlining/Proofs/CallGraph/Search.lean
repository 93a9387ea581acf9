import Mathlib.Data.List.Flatten
import PhasedInlining.Proofs.CallGraph.Lowlinks

/-!
# A search finds the components

When the search is done with a function for which its own number is noted, no call leads from what
lies above it to what lies further down, and so what lies above is its component
(`Linked.mem_component`). Every look-up finds what it looks for (`Inv.step`), and the search is over
after as many steps as there are functions and calls (`Inv.run`). The components come out callees
first (`components?_spec`).
-/

namespace PhasedInlining

open Relation (ReflTransGen)

namespace Snapshot

namespace Search

/-- The call of `g` by `f` has been looked at. -/
def Looked (t : Search) (f g : FunctionId) : Prop :=
  g ∈ t.index ∧ (g ∈ t.stack → t.lowOf f ≤ t.num g)

section Component

variable {r : FunctionId → FunctionId → Prop} {t : Search} {path : List FunctionId}
  {f g v : FunctionId}

/-- A call from above the function at the top leads there again, or to a known component. -/
theorem Linked.call (hkept : Kept t) (h : Linked r t (v :: path)) (hv : t.lowOf v = t.num v)
    (hf : f ∈ t.stack ∧ t.num v ≤ t.num f) (hlooked : Looked t f g) :
    (g ∈ t.stack ∧ t.num v ≤ t.num g) ∨ t.Placed g := by
  rcases (hkept.index_iff g).1 hlooked.1 with hg | hg
  · refine .inl ⟨hg, ?_⟩
    calc t.num v = t.lowOf v := hv.symm
      _ ≤ t.lowOf f := h.low_top hf.1 hf.2
      _ ≤ t.num g := hlooked.2 hg
  · exact .inr hg

/-- What lies above the function at the top leads back to it. -/
theorem Linked.returns (hkept : Kept t) (h : Linked r t (v :: path)) (hv : t.lowOf v = t.num v) :
    ∀ (n : Nat) (f : FunctionId), t.num f = n → f ∈ t.stack → t.num v ≤ t.num f →
      ReflTransGen r f v := by
  intro n
  induction n using Nat.strong_induction_on with
  | _ n ih =>
    intro f hn hf hle
    by_cases hpath : f ∈ v :: path
    · rw [hkept.eq_of_num hf h.top_mem (Nat.le_antisymm (h.le_top f hpath) hle)]
    · obtain ⟨k, hk, hkf, hreach⟩ := h.low_reached f hf
      have hless := h.left_low f hf hpath
      have hkeep := h.low_top hf hle
      exact hreach.trans (ih (t.num k) (by omega) k rfl hk (by omega))

theorem placed_of_reaches (hclosed : ∀ f g, t.Placed f → r f g → t.Placed g) (hf : t.Placed f)
    (hfg : ReflTransGen r f g) : t.Placed g := by
  induction hfg with
  | refl => exact hf
  | tail _ hbc ih => exact hclosed _ _ ih hbc

/-- The search is done with the function at the top: its component lies above it. -/
theorem Linked.mem_component (hkept : Kept t) (h : Linked r t (v :: path))
    (hv : t.lowOf v = t.num v) (hclosed : ∀ f g, t.Placed f → r f g → t.Placed g)
    (hlooked : ∀ f ∈ t.stack, t.num v ≤ t.num f → ∀ g, r f g → Looked t f g) :
    g ∈ t.stack ∧ t.num v ≤ t.num g ↔ ReflTransGen r v g ∧ ReflTransGen r g v := by
  constructor
  · rintro ⟨hg, hle⟩
    exact ⟨h.reaches v List.mem_cons_self g hg hle, h.returns hkept hv _ g rfl hg hle⟩
  · rintro ⟨hvg, hgv⟩
    have hfound : (g ∈ t.stack ∧ t.num v ≤ t.num g) ∨ t.Placed g := by
      clear hgv
      induction hvg with
      | refl => exact .inl ⟨h.top_mem, le_rfl⟩
      | tail _ hbc ih =>
        rcases ih with ih | ih
        · exact h.call hkept hv ih (hlooked _ ih.1 ih.2 _ hbc)
        · exact .inr (hclosed _ _ ih hbc)
    refine hfound.resolve_right fun hg => ?_
    exact hkept.fresh v h.top_mem (placed_of_reaches hclosed hg hgv)

/-- Each component found is a class of mutual reachability, and none leads to one found later. -/
structure Grouped (r : FunctionId → FunctionId → Prop) (t : Search) : Prop where
  closed : ∀ f g, t.Placed f → r f g → t.Placed g
  component : ∀ c ∈ t.components,
    c.Nodup ∧ ∃ f ∈ c, ∀ g, g ∈ c ↔ ReflTransGen r f g ∧ ReflTransGen r g f
  order : t.components.Pairwise fun c c' => ∀ f ∈ c', ∀ g ∈ c, ¬ ReflTransGen r f g

theorem Grouped.close (hkept : Kept t) (hlinked : Linked r t (v :: path)) (h : Grouped r t)
    (hv : t.lowOf v = t.num v)
    (hlooked : ∀ f ∈ t.stack, t.num v ≤ t.num f → ∀ g, r f g → Looked t f g) :
    Grouped r (t.close v) := by
  obtain ⟨c, hcomponents, hstack, -, hc, -⟩ := hkept.close_split hlinked.top_mem
  refine ⟨fun f g hf hfg => ?_, ?_, ?_⟩
  · rw [placed_of_components hcomponents] at hf ⊢
    rcases hf with hf | hf
    · have hf := (hc f).1 hf
      rw [hc]
      exact hlinked.call hkept hv hf (hlooked f hf.1 hf.2 g hfg)
    · exact .inr (h.closed f g hf hfg)
  · rw [hcomponents]
    have hv' := (hc v).2 ⟨hlinked.top_mem, le_rfl⟩
    refine List.forall_mem_cons.2 ⟨⟨?_, v, hv', fun g => ?_⟩, h.component⟩
    · exact (List.nodup_append.1 (hstack ▸ hkept.nodup)).1
    · rw [hc]
      exact hlinked.mem_component hkept hv h.closed hlooked
  · rw [hcomponents]
    refine List.pairwise_cons.2 ⟨fun c' hc' f hf g hg hfg => ?_, h.order⟩
    exact hkept.fresh g ((hc g).1 hg).1 (placed_of_reaches h.closed ⟨c', hc', hf⟩ hfg)

end Component

/-- The call of `g` by `f` is one to be looked at yet. -/
def Awaits (succ : FunctionId → List FunctionId) (frames : List Frame) (f g : FunctionId) : Prop :=
  ∃ p ∈ frames, p.function = f ∧ g ∈ (succ f).drop p.next

section Awaits

variable {succ : FunctionId → List FunctionId} {frame : Frame} {frames : List Frame}
  {f g k : FunctionId}

theorem Awaits.next (h : Awaits succ (frame :: frames) f k)
    (hg : (succ frame.function)[frame.next]? = some g) : (f = frame.function ∧ k = g)
      ∨ Awaits succ ({ frame with next := frame.next + 1 } :: frames) f k := by
  obtain ⟨p, hp, rfl, hk⟩ := h
  rcases List.mem_cons.1 hp with rfl | hp
  · obtain ⟨hlt, rfl⟩ := List.getElem?_eq_some_iff.1 hg
    rw [List.drop_eq_getElem_cons hlt, List.mem_cons] at hk
    exact hk.imp (⟨rfl, ·⟩) fun hk => ⟨_, List.mem_cons_self, rfl, hk⟩
  · exact .inr ⟨p, List.mem_cons_of_mem _ hp, rfl, hk⟩

theorem Awaits.rest (h : Awaits succ (frame :: frames) f k)
    (hdone : (succ frame.function)[frame.next]? = none) : Awaits succ frames f k := by
  obtain ⟨p, hp, rfl, hk⟩ := h
  rcases List.mem_cons.1 hp with rfl | hp
  · rw [List.drop_eq_nil_of_le (List.getElem?_eq_none_iff.1 hdone)] at hk
    cases hk
  · exact ⟨p, hp, rfl, hk⟩

end Awaits

/-- What holds along a search among `members`. -/
structure Inv (members : List FunctionId) (succ : FunctionId → List FunctionId) (t : Search)
    (frames : List Frame) : Prop where
  kept : Kept t
  linked : Linked (fun f g => g ∈ succ f) t (frames.map Frame.function)
  grouped : Grouped (fun f g => g ∈ succ f) t
  looked : ∀ f ∈ t.stack, ∀ g ∈ succ f, Looked t f g ∨ Awaits succ frames f g
  inside : ∀ f ∈ t.index, f ∈ members

/-- How many steps are left at most. -/
def work (members : List FunctionId) (succ : FunctionId → List FunctionId) (t : Search)
    (frames : List Frame) : Nat :=
  (frames.flatMap fun p => p.function :: (succ p.function).drop p.next).length
    + ((members.filter (· ∉ t.index)).flatMap fun f => f :: succ f).length

namespace Inv

variable {members : List FunctionId} {succ : FunctionId → List FunctionId} {t : Search}
  {frame : Frame} {frames : List Frame} {g : FunctionId}

theorem empty : Inv members succ {} [] := by
  refine ⟨⟨?_, ?_, ?_, ?_, .nil, ?_⟩, ⟨?_, .nil, ?_, ?_, ?_, ?_, ?_, ?_⟩, ⟨?_, ?_, .nil⟩, ?_, ?_⟩
  all_goals simp [Placed]

/-- A function is found from the one at the top, or as the first. -/
theorem discover {frames' : List Frame} (h : Inv members succ t frames) (hnew : g ∉ t.index)
    (hg : g ∈ members) (hsame : frames'.map Frame.function = frames.map Frame.function)
    (hreach : ∀ p ∈ frames.map Frame.function, ReflTransGen (fun f g => g ∈ succ f) p g)
    (hawaits : ∀ f k, Awaits succ frames f k → k = g ∨ Awaits succ frames' f k) :
    Inv members succ (t.discover g) ({ function := g } :: frames') := by
  have hlow : ∀ f ∈ t.stack, (t.discover g).lowOf f = t.lowOf f := fun f hf =>
    lowOf_discover hnew (h.kept.mem_index hf)
  refine ⟨h.kept.discover hnew, ?_, ⟨h.grouped.closed, h.grouped.component, h.grouped.order⟩,
    List.forall_mem_cons.2 ⟨fun k hk => ?_, fun f hf k hk => ?_⟩, fun f hf => ?_⟩
  · rw [List.map_cons, hsame]
    exact h.linked.discover h.kept hnew hreach
  · exact .inr ⟨_, List.mem_cons_self, rfl, hk⟩
  · have hfresh : Looked (t.discover g) f g := by
      refine ⟨(mem_index_discover t g g).2 (.inl rfl), fun _ => ?_⟩
      rw [hlow f hf, num_discover_self]
      exact (h.linked.low_le f hf).trans (h.kept.num_lt f hf).le
    rcases h.looked f hf k hk with hlooked | hlater
    · refine .inl ⟨(mem_index_discover t g k).2 (.inr hlooked.1), fun hks => ?_⟩
      rw [hlow f hf, num_discover hnew hlooked.1]
      have hkg : k ≠ g := fun heq => hnew (heq ▸ hlooked.1)
      exact hlooked.2 (List.mem_of_ne_of_mem hkg hks)
    · rcases hawaits f k hlater with rfl | ⟨p, hp, hpf⟩
      · exact .inl hfresh
      · exact .inr ⟨p, List.mem_cons_of_mem _ hp, hpf⟩
  · rcases (mem_index_discover t g f).1 hf with rfl | hf
    · exact hg
    · exact h.inside f hf

/-- The next callee was found before. -/
theorem advance (h : Inv members succ t (frame :: frames))
    (hg : (succ frame.function)[frame.next]? = some g) (hlooked : Looked t frame.function g) :
    Inv members succ t ({ frame with next := frame.next + 1 } :: frames) := by
  refine ⟨h.kept, h.linked, h.grouped, fun f hf k hk => ?_, h.inside⟩
  rcases h.looked f hf k hk with hbefore | hlater
  · exact .inl hbefore
  · rcases hlater.next hg with ⟨rfl, rfl⟩ | hlater
    · exact .inl hlooked
    · exact .inr hlater

theorem lower (h : Inv members succ t frames) {v : FunctionId} (hv : v ∈ frames.map Frame.function)
    {n : Nat} (hn : ∃ g ∈ t.stack, t.num g = n ∧ ReflTransGen (fun f g => g ∈ succ f) v g) :
    Inv members succ (t.lower v n) frames := by
  have hlow := h.kept.mem_low (h.linked.path_mem v hv)
  refine ⟨h.kept.lower v n, h.linked.lower h.kept hv hn,
    ⟨h.grouped.closed, h.grouped.component, h.grouped.order⟩, fun f hf k hk => ?_, h.inside⟩
  refine (h.looked f hf k hk).imp_left fun hlooked => ⟨hlooked.1, fun hks => ?_⟩
  exact (lowOf_lower_le t f hlow n).trans (hlooked.2 hks)

/-- The search is done with the function at the top, which stays on the stack. -/
theorem leave (h : Inv members succ t (frame :: frames))
    (hdone : (succ frame.function)[frame.next]? = none)
    (hlow : t.lowOf frame.function < t.num frame.function)
    (hparent : ∀ p ∈ frames.head?, t.lowOf p.function ≤ t.lowOf frame.function) :
    Inv members succ t frames := by
  refine ⟨h.kept, h.linked.leave h.kept hlow fun p hp => ?_, h.grouped, fun f hf k hk => ?_,
    h.inside⟩
  · rw [List.head?_map, Option.mem_map] at hp
    obtain ⟨p, hp, rfl⟩ := hp
    exact hparent p hp
  · exact (h.looked f hf k hk).imp_right (·.rest hdone)

/-- The search is done with the function at the top, which leaves the stack with its component. -/
theorem close (h : Inv members succ t (frame :: frames))
    (hdone : (succ frame.function)[frame.next]? = none)
    (hlow : t.lowOf frame.function = t.num frame.function) :
    Inv members succ (t.close frame.function) frames := by
  obtain ⟨-, -, -, -, -, hstack⟩ := h.kept.close_split h.linked.top_mem
  have hlooked : ∀ f ∈ t.stack, t.num frame.function ≤ t.num f → ∀ g ∈ succ f, Looked t f g := by
    intro f hf hle g hg
    refine (h.looked f hf g hg).resolve_right fun hlater => ?_
    obtain ⟨p, hp, rfl, -⟩ := hlater.rest hdone
    have hlt := h.linked.lt_top p.function (List.mem_map_of_mem hp)
    omega
  refine ⟨h.kept.close h.linked.top_mem, h.linked.close h.kept,
    h.grouped.close h.kept h.linked hlow hlooked, fun f hf k hk => ?_, h.inside⟩
  have hf := ((hstack f).1 hf).1
  refine (h.looked f hf k hk).imp (fun hbefore => ⟨hbefore.1, fun hks => ?_⟩) (·.rest hdone)
  exact hbefore.2 ((hstack k).1 hks).1

/-- The caller of the function at the top reaches what that one reaches. -/
theorem hand_up (h : Inv members succ t (frame :: frames)) :
    let low := t.lowOf frame.function
    let t' := frames.head?.elim t fun parent => t.lower parent.function low
    Inv members succ t' (frame :: frames) ∧ t'.index = t.index ∧ t'.lowOf frame.function = low
      ∧ ∀ p ∈ frames.head?, t'.lowOf p.function ≤ low := by
  cases frames with
  | nil => exact ⟨h, rfl, rfl, by simp⟩
  | cons parent frames =>
    have hpath : parent.function ∈ (frame :: parent :: frames).map Frame.function :=
      List.mem_cons_of_mem _ List.mem_cons_self
    have hparent := h.kept.mem_low (h.linked.path_mem parent.function hpath)
    have hlt : t.num parent.function < t.num frame.function :=
      h.linked.lt_top _ List.mem_cons_self
    obtain ⟨k, hk, hkv, hreach⟩ := h.linked.low_reached frame.function h.linked.top_mem
    have hdown := h.linked.reaches parent.function hpath _ h.linked.top_mem hlt.le
    refine ⟨h.lower hpath ⟨k, hk, hkv, hdown.trans hreach⟩, rfl, ?_, ?_⟩
    · rw [List.head?_cons, Option.elim_some, lowOf_lower t _ hparent, if_neg]
      exact ne_of_apply_ne t.num hlt.ne'
    · rintro p ⟨⟩
      rw [List.head?_cons, Option.elim_some, lowOf_lower t _ hparent, if_pos rfl]
      exact Nat.min_le_right _ _

theorem done (h : Inv members succ t (frame :: frames))
    (hdone : (succ frame.function)[frame.next]? = none) :
    ∃ t', t.leave frame.function frames = some t' ∧ Inv members succ t' frames
      ∧ t'.index = t.index := by
  have hlow := low_getElem? t (h.kept.mem_low h.linked.top_mem)
  obtain ⟨hinv, hindex, hsame, hparent⟩ := h.hand_up
  simp only [Search.leave, hlow, Option.bind_eq_bind, Option.bind_some]
  generalize frames.head?.elim t (fun parent => t.lower parent.function (t.lowOf frame.function))
    = t' at hinv hindex hsame hparent ⊢
  have hle := hinv.linked.low_le frame.function hinv.linked.top_mem
  rw [index_getElem? t' (hinv.kept.mem_index hinv.linked.top_mem), Option.bind_some, ← hsame]
  refine ⟨_, rfl, ?_, ?_⟩
  · split_ifs with heq
    · exact hinv.close hdone heq
    · exact hinv.leave hdone (lt_of_le_of_ne hle heq) (hsame ▸ hparent)
  · split_ifs
    · exact hindex
    · exact hindex

end Inv

section Work

variable (members : List FunctionId) {succ : FunctionId → List FunctionId} (t : Search)
  {frame : Frame} (frames : List Frame) {g : FunctionId}

theorem work_next (hg : (succ frame.function)[frame.next]? = some g) :
    work members succ t (frame :: frames)
      = work members succ t ({ frame with next := frame.next + 1 } :: frames) + 1 := by
  obtain ⟨hlt, -⟩ := List.getElem?_eq_some_iff.1 hg
  simp only [work, List.flatMap_cons, List.length_append, List.length_cons, List.length_drop]
  omega

theorem work_discover {members : List FunctionId} {t : Search} (hnodup : members.Nodup)
    (hg : g ∈ members) (hnew : g ∉ t.index) :
    work members succ (t.discover g) ({ function := g } :: frames)
      = work members succ t frames := by
  have hfilter : members.filter (· ∉ (t.discover g).index)
      = (members.filter (· ∉ t.index)).erase g := by
    rw [(hnodup.filter _).erase_eq_filter, List.filter_filter]
    refine List.filter_congr fun f _ => ?_
    simp only [mem_index_discover, not_or, Bool.decide_and, bne, decide_not,
      Bool.beq_eq_decide_eq]
  have hmem : g ∈ members.filter (· ∉ t.index) := by
    rw [List.mem_filter, decide_eq_true_eq]
    exact ⟨hg, hnew⟩
  have hlength := ((List.perm_cons_erase hmem).flatMap_right fun f => f :: succ f).length_eq
  simp only [work, hfilter, hlength, List.flatMap_cons, List.length_append, List.drop_zero]
  omega

end Work

namespace Inv

variable {members : List FunctionId} {succ : FunctionId → List FunctionId} {t : Search}
  {frame : Frame} {frames : List Frame}
  (hnodup : members.Nodup) (hin : ∀ f ∈ members, ∀ g ∈ succ f, g ∈ members)
include hnodup hin

/-- A step finds what it looks up. -/
theorem step (h : Inv members succ t (frame :: frames)) :
    ∃ t' frames', t.step succ frame frames = some (t', frames') ∧ Inv members succ t' frames'
      ∧ work members succ t' frames' < work members succ t (frame :: frames)
      ∧ ∀ f ∈ t.index, f ∈ t'.index := by
  have hvs := h.linked.top_mem
  cases hnext : (succ frame.function)[frame.next]? with
  | none =>
    obtain ⟨t', heq, hinv, hindex⟩ := h.done hnext
    refine ⟨t', frames, by simp only [Search.step, hnext, heq, Option.map_some], hinv, ?_,
      fun f hf => hindex ▸ hf⟩
    simp only [work, hindex, List.flatMap_cons, List.length_append, List.length_cons]
    omega
  | some g =>
    have hcall : g ∈ succ frame.function := List.mem_of_getElem? hnext
    have hwork := work_next members t frames hnext
    by_cases hg : g ∈ t.index
    · have hfound := Std.TreeMap.contains_iff_mem.2 hg
      by_cases hgs : g ∈ t.stack
      · have hon := Std.TreeSet.contains_iff_mem.2 ((h.kept.onStack_iff g).2 hgs)
        have hn : ∃ k ∈ t.stack, t.num k = t.num g
            ∧ ReflTransGen (fun f g => g ∈ succ f) frame.function k :=
          ⟨g, hgs, rfl, .single hcall⟩
        have hlow : (t.lower frame.function (t.num g)).lowOf frame.function ≤ t.num g := by
          rw [lowOf_lower t _ (h.kept.mem_low hvs), if_pos rfl]
          exact Nat.min_le_right _ _
        refine ⟨t.lower frame.function (t.num g), _, ?_,
          (h.lower List.mem_cons_self hn).advance hnext ⟨hg, fun _ => hlow⟩, ?_, fun f hf => hf⟩
        · simp [Search.step, hnext, hfound, hon, index_getElem? t hg, -getElem?_pos]
        · exact hwork ▸ Nat.lt_succ_self _
      · refine ⟨t, _, ?_, h.advance hnext ⟨hg, fun hmem => absurd hmem hgs⟩,
          hwork ▸ Nat.lt_succ_self _, fun f hf => hf⟩
        simp [Search.step, hnext, hg, (h.kept.onStack_iff g).not.2 hgs]
    · have hmember := hin _ (h.inside _ (h.kept.mem_index hvs)) g hcall
      refine ⟨t.discover g, { function := g } :: { frame with next := frame.next + 1 } :: frames,
        by simp [Search.step, hnext, hg], h.discover hg hmember rfl (fun p hp => ?_)
          fun f k hlater => (hlater.next hnext).imp_left And.right, ?_,
        fun f hf => (mem_index_discover t g f).2 (.inr hf)⟩
      · exact (h.linked.reaches p hp _ hvs (h.linked.le_top p hp)).tail hcall
      · rw [work_discover _ hnodup hmember hg, hwork]
        exact Nat.lt_succ_self _

/-- A search that has as many steps as it needs is over with nothing left on its stack. -/
theorem run : ∀ (fuel : Nat) {t : Search} {frames : List Frame}, Inv members succ t frames →
    work members succ t frames ≤ fuel → ∃ t', Search.run succ fuel t frames = some t'
      ∧ Inv members succ t' [] ∧ ∀ f ∈ t.index, f ∈ t'.index
  | 0, t, [], h, _ => ⟨t, rfl, h, fun _ hf => hf⟩
  | _ + 1, t, [], h, _ => ⟨t, rfl, h, fun _ hf => hf⟩
  | 0, t, frame :: frames, _, hfuel => by simp [work] at hfuel
  | fuel + 1, t, frame :: frames, h, hfuel => by
    obtain ⟨t', frames', heq, hinv, hless, hindex⟩ := h.step hnodup hin
    obtain ⟨t'', hrun, hinv', hindex'⟩ := run fuel hinv (by omega)
    refine ⟨t'', ?_, hinv', fun f hf => hindex' f (hindex f hf)⟩
    rw [Search.run, heq, Option.bind_some]
    exact hrun

theorem connect {fuel : Nat} (hfuel : (members.flatMap fun f => f :: succ f).length ≤ fuel)
    {root : FunctionId} (hroot : root ∈ members) (h : Inv members succ t []) :
    ∃ t', Search.connect succ fuel t root = some t' ∧ Inv members succ t' []
      ∧ (∀ f ∈ t.index, f ∈ t'.index) ∧ root ∈ t'.index := by
  by_cases hfound : root ∈ t.index
  · exact ⟨t, by simp [Search.connect, hfound], h, fun _ hf => hf, hfound⟩
  · have hstart := h.discover hfound hroot rfl (by simp) fun f k hlater => .inr hlater
    have hwork : work members succ (t.discover root) [{ function := root }] ≤ fuel := by
      rw [work_discover [] hnodup hroot hfound]
      refine le_trans ?_ hfuel
      rw [work, List.flatMap_nil, List.length_nil, Nat.zero_add]
      exact (List.filter_sublist.flatMap _).length_le
    obtain ⟨t', hrun, hinv, hindex⟩ := hstart.run hnodup hin fuel hwork
    refine ⟨t', by simp [Search.connect, hfound, hrun], hinv, fun f hf => hindex f ?_,
      hindex root ?_⟩
    · exact (mem_index_discover t root f).2 (.inr hf)
    · exact (mem_index_discover t root root).2 (.inl rfl)

theorem connect_all {fuel : Nat} (hfuel : (members.flatMap fun f => f :: succ f).length ≤ fuel) :
    ∀ (roots : List FunctionId) {t : Search}, (∀ f ∈ roots, f ∈ members) → Inv members succ t [] →
      ∃ t', roots.foldlM (Search.connect succ fuel) t = some t' ∧ Inv members succ t' []
        ∧ (∀ f ∈ t.index, f ∈ t'.index) ∧ ∀ f ∈ roots, f ∈ t'.index
  | [], t, _, h => ⟨t, rfl, h, fun _ hf => hf, by simp⟩
  | root :: roots, t, hroots, h => by
    rw [List.forall_mem_cons] at hroots
    obtain ⟨t', heq, hinv, hindex, hroot⟩ := h.connect hnodup hin hfuel hroots.1
    obtain ⟨t'', hrest, hinv', hindex', hall⟩ := connect_all hfuel roots hroots.2 hinv
    refine ⟨t'', ?_, hinv', fun f hf => hindex' f (hindex f hf),
      List.forall_mem_cons.2 ⟨hindex' root hroot, hall⟩⟩
    rw [List.foldlM_cons, heq, Option.bind_eq_bind, Option.bind_some, hrest]

end Inv

/-- The components are found, each with every member once, and callees first. -/
theorem components?_spec {members : List FunctionId} {succ : FunctionId → List FunctionId}
    (hnodup : members.Nodup) (hin : ∀ f ∈ members, ∀ g ∈ succ f, g ∈ members) :
    let r := fun f g => g ∈ succ f
    ∃ cs, components? succ members = some cs
      ∧ (∀ c ∈ cs, c.Nodup ∧ ∃ f ∈ c, f ∈ members
          ∧ ∀ g, g ∈ c ↔ ReflTransGen r f g ∧ ReflTransGen r g f)
      ∧ (∀ f ∈ members, ∃ c ∈ cs, f ∈ c)
      ∧ cs.Pairwise fun c c' => ∀ f ∈ c, ∀ g ∈ c', ¬ ReflTransGen r f g := by
  have hfuel := foldl_length_eq (fun f => f :: succ f) members 0
  simp only [List.length_cons, Nat.zero_add] at hfuel
  obtain ⟨t, heq, h, -, hall⟩ := Inv.empty.connect_all hnodup hin hfuel.ge members fun _ hf => hf
  have hstack : t.stack = [] := by
    refine List.eq_nil_iff_forall_not_mem.2 fun f hf => ?_
    obtain ⟨p, hp, -⟩ := h.linked.covered f hf
    cases hp
  have hplaced : ∀ f, f ∈ t.index ↔ t.Placed f := fun f => by
    rw [h.kept.index_iff, hstack]
    simp
  refine ⟨t.components.reverse, by rw [components?, heq, Option.map_some], fun c hc => ?_,
    fun f hf => ?_, List.pairwise_reverse.2 h.grouped.order⟩
  · rw [List.mem_reverse] at hc
    obtain ⟨hc', f, hf, hclass⟩ := h.grouped.component c hc
    exact ⟨hc', f, hf, h.inside f ((hplaced f).2 ⟨c, hc, hf⟩), hclass⟩
  · obtain ⟨c, hc, hfc⟩ := (hplaced f).1 (hall f hf)
    exact ⟨c, List.mem_reverse.2 hc, hfc⟩

end Search

end Snapshot

end PhasedInlining
