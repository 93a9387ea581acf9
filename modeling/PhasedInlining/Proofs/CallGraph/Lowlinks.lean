import Mathlib.Data.List.Nodup
import Mathlib.Data.List.Perm.Basic
import Mathlib.Logic.Relation
import PhasedInlining.CallGraph.Cycle
import PhasedInlining.Proofs.CallGraph.Snapshot

/-!
# What the numbers of a search say

The functions that a search is going through lie on its stack, and each of them reaches everything
above it (`Linked.reaches`). The number noted for a function is that of a function on the stack that
it reaches (`Linked.low_reached`), and once the search is done with a function it is a smaller one
than its own, or the function would have left the stack (`Linked.left_low`). What is noted for a
function is no less than what is noted for the next one below it that the search is going through
(`Linked.low_path`).
-/

namespace PhasedInlining

open Relation (ReflTransGen)

namespace Snapshot

namespace Search

/-- The number of a function. -/
def num (t : Search) (f : FunctionId) : Nat := t.index.getD f 0

/-- The number noted for a function. -/
def lowOf (t : Search) (f : FunctionId) : Nat := t.low.getD f 0

/-- The component of a function is known. -/
def Placed (t : Search) (f : FunctionId) : Prop := ∃ c ∈ t.components, f ∈ c

section Lookups

variable (t : Search) (f g : FunctionId)

theorem index_getElem? {f : FunctionId} (hf : f ∈ t.index) : t.index[f]? = some (t.num f) :=
  Std.TreeMap.getElem?_eq_some_getD hf

theorem low_getElem? {f : FunctionId} (hf : f ∈ t.low) : t.low[f]? = some (t.lowOf f) :=
  Std.TreeMap.getElem?_eq_some_getD hf

theorem num_discover_self : (t.discover f).num f = t.count := Std.TreeMap.getD_insert_self

theorem lowOf_discover_self : (t.discover f).lowOf f = t.count := Std.TreeMap.getD_insert_self

section

variable {t f g} (hf : f ∉ t.index) (hg : g ∈ t.index)
include hf hg

theorem num_discover : (t.discover f).num g = t.num g := by
  have hne : f ≠ g := fun heq => hf (heq ▸ hg)
  simp [num, discover, Std.TreeMap.getD_insert, hne]

theorem lowOf_discover : (t.discover f).lowOf g = t.lowOf g := by
  have hne : f ≠ g := fun heq => hf (heq ▸ hg)
  simp [lowOf, discover, Std.TreeMap.getD_insert, hne]

end

theorem mem_index_discover : g ∈ (t.discover f).index ↔ g = f ∨ g ∈ t.index := by
  rw [discover, Std.TreeMap.mem_insert, Std.LawfulEqCmp.compare_eq_iff_eq, eq_comm]

theorem lowOf_lower {f : FunctionId} (hf : f ∈ t.low) (n : Nat) :
    (t.lower f n).lowOf g = if g = f then min (t.lowOf f) n else t.lowOf g := by
  rw [lowOf, lower, Std.TreeMap.getD_modify, low_getElem? t hf]
  simp only [Std.LawfulEqCmp.compare_eq_iff_eq, eq_comm (a := f), Option.map_some, Option.getD_some]
  rfl

theorem lowOf_lower_le {f : FunctionId} (hf : f ∈ t.low) (n : Nat) :
    (t.lower f n).lowOf g ≤ t.lowOf g := by
  rw [lowOf_lower t g hf]
  split_ifs with hg
  · rw [hg]
    exact Nat.min_le_left _ _
  · exact Nat.le_refl _

theorem mem_foldl_erase : ∀ (c : List FunctionId) (fs : Std.TreeSet FunctionId),
    g ∈ c.foldl (fun fs g => fs.erase g) fs ↔ g ∈ fs ∧ g ∉ c
  | [], fs => by simp
  | h :: c, fs => by
    rw [List.foldl_cons, mem_foldl_erase, Std.TreeSet.mem_erase, List.mem_cons, ne_eq,
      Std.LawfulEqCmp.compare_eq_iff_eq, eq_comm (a := h)]
    tauto

variable {t f g} in
theorem placed_of_components {t' : Search} {c : List FunctionId}
    (h : t'.components = c :: t.components) : t'.Placed f ↔ f ∈ c ∨ t.Placed f := by
  simp only [Placed, h, List.mem_cons, exists_eq_or_imp]

end Lookups

/-- The tables agree with the stack and the components, and numbers fall along the stack. -/
structure Kept (t : Search) : Prop where
  low_iff : ∀ f, f ∈ t.low ↔ f ∈ t.index
  onStack_iff : ∀ f, f ∈ t.onStack ↔ f ∈ t.stack
  index_iff : ∀ f, f ∈ t.index ↔ f ∈ t.stack ∨ t.Placed f
  fresh : ∀ f ∈ t.stack, ¬ t.Placed f
  falling : t.stack.Pairwise fun f g => t.num g < t.num f
  num_lt : ∀ f ∈ t.stack, t.num f < t.count

namespace Kept

variable {t : Search} {f g : FunctionId}

theorem mem_index (h : Kept t) (hf : f ∈ t.stack) : f ∈ t.index := (h.index_iff f).2 (.inl hf)

theorem mem_low (h : Kept t) (hf : f ∈ t.stack) : f ∈ t.low := (h.low_iff f).2 (h.mem_index hf)

theorem nodup (h : Kept t) : t.stack.Nodup :=
  h.falling.imp fun {_ _} hlt => ne_of_apply_ne t.num hlt.ne'

theorem eq_of_num (h : Kept t) (hf : f ∈ t.stack) (hg : g ∈ t.stack) (heq : t.num f = t.num g) :
    f = g := by
  have hdistinct : (t.stack.map t.num).Nodup :=
    List.pairwise_map.2 (h.falling.imp fun hlt => hlt.ne')
  exact List.inj_on_of_nodup_map hdistinct hf hg heq

theorem discover (h : Kept t) (hf : f ∉ t.index) : Kept (t.discover f) := by
  have hnum : ∀ g ∈ t.stack, (t.discover f).num g = t.num g := fun g hg =>
    num_discover hf (h.mem_index hg)
  refine ⟨fun g => ?_, fun g => ?_, fun g => ?_, ?_, ?_, ?_⟩
  · rw [mem_index_discover, Search.discover, Std.TreeMap.mem_insert,
      Std.LawfulEqCmp.compare_eq_iff_eq, h.low_iff, eq_comm]
  · rw [Search.discover, Std.TreeSet.mem_insert, Std.LawfulEqCmp.compare_eq_iff_eq,
      h.onStack_iff, List.mem_cons, eq_comm]
  · rw [mem_index_discover, h.index_iff, Search.discover, List.mem_cons, or_assoc]
    rfl
  · refine List.forall_mem_cons.2 ⟨fun hplaced => hf ?_, h.fresh⟩
    exact (h.index_iff f).2 (.inr hplaced)
  · refine List.pairwise_cons.2 ⟨fun g hg => ?_, h.falling.imp_of_mem fun {a b} ha hb hlt => ?_⟩
    · rw [num_discover_self, hnum g hg]
      exact h.num_lt g hg
    · rwa [hnum a ha, hnum b hb]
  · refine List.forall_mem_cons.2 ⟨?_, fun g hg => ?_⟩
    · rw [num_discover_self]
      exact Nat.lt_succ_self _
    · rw [hnum g hg]
      exact Nat.lt_succ_of_lt (h.num_lt g hg)

theorem lower (h : Kept t) (f : FunctionId) (n : Nat) : Kept (t.lower f n) :=
  ⟨fun g => (Std.TreeMap.mem_modify).trans (h.low_iff g), h.onStack_iff, h.index_iff, h.fresh,
    h.falling, h.num_lt⟩

/-- What lies on the stack down to `f`, and what is left, by their numbers. -/
theorem close_split (h : Kept t) (hf : f ∈ t.stack) :
    ∃ component, (t.close f).components = component :: t.components
      ∧ t.stack = component ++ (t.close f).stack
      ∧ (∀ g, g ∈ (t.close f).onStack ↔ g ∈ t.onStack ∧ g ∉ component)
      ∧ (∀ g, g ∈ component ↔ g ∈ t.stack ∧ t.num f ≤ t.num g)
      ∧ ∀ g, g ∈ (t.close f).stack ↔ g ∈ t.stack ∧ t.num g < t.num f := by
  obtain ⟨above, rest, hsplit, hnot⟩ := List.eq_append_cons_of_mem hf
  have habove : ∀ g ∈ above, decide (g ≠ f) = true := by
    intro g hg
    rw [decide_eq_true_eq]
    rintro rfl
    exact hnot hg
  have hdrop : t.stack.dropWhile (· ≠ f) = f :: rest := by
    rw [hsplit, List.dropWhile_append_of_pos habove]
    simp
  have htake : t.stack.takeWhile (· ≠ f) = above := by
    rw [hsplit, List.takeWhile_append_of_pos habove]
    simp
  have hclose : t.close f = { t with
      onStack := (above ++ [f]).foldl (fun fs g => fs.erase g) t.onStack
      stack := rest
      components := (above ++ [f]) :: t.components } := by
    simp only [Search.close, hdrop, htake]
    rfl
  have hfall := h.falling
  rw [hsplit, List.pairwise_append] at hfall
  obtain ⟨-, hrest, hcross⟩ := hfall
  have hbelow := (List.pairwise_cons.1 hrest).1
  have hhigh : ∀ g ∈ above, t.num f < t.num g := fun g hg => hcross g hg f List.mem_cons_self
  rw [hclose]
  refine ⟨above ++ [f], rfl, by rw [hsplit]; simp, fun g => mem_foldl_erase g _ _,
    fun g => ?_, fun g => ?_⟩
  · rw [hsplit]
    simp only [List.mem_append, List.mem_cons, List.not_mem_nil, or_false]
    constructor
    · rintro (hg | rfl)
      · exact ⟨.inl hg, (hhigh g hg).le⟩
      · exact ⟨.inr (.inl rfl), le_rfl⟩
    · rintro ⟨hg | rfl | hg, hle⟩
      · exact .inl hg
      · exact .inr rfl
      · exact absurd (hbelow g hg) hle.not_gt
  · rw [hsplit]
    simp only [List.mem_append, List.mem_cons]
    constructor
    · exact fun hg => ⟨.inr (.inr hg), hbelow g hg⟩
    · rintro ⟨hg | rfl | hg, hlt⟩
      · exact absurd (hhigh g hg) hlt.not_gt
      · exact absurd hlt (Nat.lt_irrefl _)
      · exact hg

theorem close (h : Kept t) (hf : f ∈ t.stack) : Kept (t.close f) := by
  obtain ⟨component, hcomponents, hstack, honStack, hcomponent, hrest⟩ := h.close_split hf
  have hdisjoint : ∀ g ∈ (t.close f).stack, g ∉ component := by
    intro g hg hmem
    exact ((hcomponent g).1 hmem).2.not_gt ((hrest g).1 hg).2
  refine ⟨h.low_iff, fun g => ?_, fun g => ?_, fun g hg hgone => ?_, ?_, fun g hg => ?_⟩
  · rw [honStack, h.onStack_iff, hstack, List.mem_append]
    constructor
    · exact fun hg => hg.1.resolve_left hg.2
    · exact fun hg => ⟨.inr hg, hdisjoint g hg⟩
  · rw [placed_of_components hcomponents, ← or_assoc, or_comm (a := g ∈ (t.close f).stack),
      ← List.mem_append, ← hstack]
    exact h.index_iff g
  · rcases (placed_of_components hcomponents).1 hgone with hmem | hold
    · exact hdisjoint g hg hmem
    · exact h.fresh g ((hrest g).1 hg).1 hold
  · exact (List.pairwise_append.1 (hstack ▸ h.falling)).2.1
  · exact h.num_lt g ((hrest g).1 hg).1

end Kept

/-- What numbers say about reachability, where `path` has the functions that the search is going
through, the last found first. -/
structure Linked (r : FunctionId → FunctionId → Prop) (t : Search) (path : List FunctionId) :
    Prop where
  path_mem : ∀ p ∈ path, p ∈ t.stack
  path_falling : path.Pairwise fun p q => t.num q < t.num p
  low_le : ∀ f ∈ t.stack, t.lowOf f ≤ t.num f
  low_reached : ∀ f ∈ t.stack, ∃ g ∈ t.stack, t.num g = t.lowOf f ∧ ReflTransGen r f g
  left_low : ∀ f ∈ t.stack, f ∉ path → t.lowOf f < t.num f
  covered : ∀ f ∈ t.stack, ∃ p ∈ path, t.num p ≤ t.num f
  reaches : ∀ p ∈ path, ∀ f ∈ t.stack, t.num p ≤ t.num f → ReflTransGen r p f
  low_path : ∀ p ∈ path, ∀ f ∈ t.stack, t.num p ≤ t.num f →
    (∀ q ∈ path, t.num q ≤ t.num f → t.num q ≤ t.num p) → t.lowOf p ≤ t.lowOf f

namespace Linked

variable {r : FunctionId → FunctionId → Prop} {t : Search} {path : List FunctionId}
  {f v : FunctionId}

theorem mem_of_num_lt {g p : FunctionId} (hlt : t.num g < t.num v) (hp : p ∈ v :: path)
    (hle : t.num p ≤ t.num g) : p ∈ path := by
  rcases List.mem_cons.1 hp with rfl | hp
  · exact absurd hlt hle.not_gt
  · exact hp

theorem top_mem (h : Linked r t (v :: path)) : v ∈ t.stack := h.path_mem v List.mem_cons_self

theorem lt_top (h : Linked r t (v :: path)) : ∀ p ∈ path, t.num p < t.num v :=
  (List.pairwise_cons.1 h.path_falling).1

theorem le_top (h : Linked r t (v :: path)) : ∀ p ∈ v :: path, t.num p ≤ t.num v :=
  List.forall_mem_cons.2 ⟨le_rfl, fun p hp => (h.lt_top p hp).le⟩

/-- Nothing above the function at the top has a smaller number noted for it. -/
theorem low_top (h : Linked r t (v :: path)) (hf : f ∈ t.stack) (hle : t.num v ≤ t.num f) :
    t.lowOf v ≤ t.lowOf f :=
  h.low_path v List.mem_cons_self f hf hle fun q hq _ => h.le_top q hq

theorem discover (hkept : Kept t) (h : Linked r t path) (hf : f ∉ t.index)
    (hreach : ∀ p ∈ path, ReflTransGen r p f) : Linked r (t.discover f) (f :: path) := by
  have hnum : ∀ g ∈ t.stack, (t.discover f).num g = t.num g := fun g hg =>
    num_discover hf (hkept.mem_index hg)
  have hlow : ∀ g ∈ t.stack, (t.discover f).lowOf g = t.lowOf g := fun g hg =>
    lowOf_discover hf (hkept.mem_index hg)
  have hnumf := num_discover_self t f
  have hlowf := lowOf_discover_self t f
  have hpath : ∀ p ∈ path, (t.discover f).num p < t.count := fun p hp => by
    rw [hnum p (h.path_mem p hp)]
    exact hkept.num_lt p (h.path_mem p hp)
  refine ⟨?_, ?_, ?_, ?_, ?_, ?_, ?_, ?_⟩
  · refine List.forall_mem_cons.2 ⟨List.mem_cons_self, fun p hp => ?_⟩
    exact List.mem_cons_of_mem _ (h.path_mem p hp)
  · refine List.pairwise_cons.2 ⟨fun p hp => hnumf ▸ hpath p hp, ?_⟩
    refine h.path_falling.imp_of_mem fun {p q} hp hq hlt => ?_
    rwa [hnum p (h.path_mem p hp), hnum q (h.path_mem q hq)]
  · refine List.forall_mem_cons.2 ⟨by rw [hnumf, hlowf], fun g hg => ?_⟩
    rw [hnum g hg, hlow g hg]
    exact h.low_le g hg
  · refine List.forall_mem_cons.2 ⟨⟨f, List.mem_cons_self, by rw [hnumf, hlowf], .refl⟩, ?_⟩
    intro g hg
    obtain ⟨k, hk, heq, hgk⟩ := h.low_reached g hg
    exact ⟨k, List.mem_cons_of_mem _ hk, by rw [hnum k hk, hlow g hg, heq], hgk⟩
  · refine List.forall_mem_cons.2 ⟨fun hno => absurd List.mem_cons_self hno, fun g hg hno => ?_⟩
    rw [hnum g hg, hlow g hg]
    exact h.left_low g hg fun hp => hno (List.mem_cons_of_mem _ hp)
  · refine List.forall_mem_cons.2 ⟨⟨f, List.mem_cons_self, le_rfl⟩, fun g hg => ?_⟩
    obtain ⟨p, hp, hle⟩ := h.covered g hg
    exact ⟨p, List.mem_cons_of_mem _ hp, by rwa [hnum g hg, hnum p (h.path_mem p hp)]⟩
  · refine List.forall_mem_cons.2 ⟨?_, fun p hp => ?_⟩
    · refine List.forall_mem_cons.2 ⟨fun _ => .refl, fun g hg hle => ?_⟩
      rw [hnumf, hnum g hg] at hle
      exact absurd (hkept.num_lt g hg) hle.not_gt
    · refine List.forall_mem_cons.2 ⟨fun _ => hreach p hp, fun g hg hle => ?_⟩
      rw [hnum g hg, hnum p (h.path_mem p hp)] at hle
      exact h.reaches p hp g hg hle
  · refine List.forall_mem_cons.2 ⟨?_, fun p hp => ?_⟩
    · refine List.forall_mem_cons.2 ⟨fun _ _ => le_rfl, fun g hg hle _ => ?_⟩
      rw [hnumf, hnum g hg] at hle
      exact absurd (hkept.num_lt g hg) hle.not_gt
    · refine List.forall_mem_cons.2 ⟨fun _ hnear => ?_, fun g hg hle hnear => ?_⟩
      · have := hnear f List.mem_cons_self le_rfl
        rw [hnumf] at this
        exact absurd (hpath p hp) this.not_gt
      · rw [hlow g hg, hlow p (h.path_mem p hp)]
        rw [hnum g hg, hnum p (h.path_mem p hp)] at hle
        refine h.low_path p hp g hg hle fun q hq hqg => ?_
        have := hnear q (List.mem_cons_of_mem _ hq)
        rw [hnum q (h.path_mem q hq), hnum g hg, hnum p (h.path_mem p hp)] at this
        exact this hqg

/-- A function that is gone through is noted to reach another on the stack. -/
theorem lower (hkept : Kept t) (h : Linked r t path) (hv : v ∈ path) {n : Nat}
    (hn : ∃ g ∈ t.stack, t.num g = n ∧ ReflTransGen r v g) : Linked r (t.lower v n) path := by
  have hvs := h.path_mem v hv
  have hle := fun g => lowOf_lower_le t g (hkept.mem_low hvs) n
  have hlow := fun g => lowOf_lower t g (hkept.mem_low hvs) n
  refine ⟨h.path_mem, h.path_falling, fun g hg => (hle g).trans (h.low_le g hg), fun g hg => ?_,
    fun g hg hno => (hle g).trans_lt (h.left_low g hg hno), h.covered, h.reaches,
    fun p hp g hg hpg hnear => ?_⟩
  · rw [hlow]
    split_ifs with hgv
    · subst hgv
      rcases Nat.le_total (t.lowOf g) n with hmin | hmin
      · rw [Nat.min_eq_left hmin]
        exact h.low_reached g hg
      · rw [Nat.min_eq_right hmin]
        exact hn
    · exact h.low_reached g hg
  · by_cases hgv : g = v
    · subst hgv
      have hpg' : p = g := hkept.eq_of_num (h.path_mem p hp) hg
        (Nat.le_antisymm hpg (hnear g hv le_rfl))
      rw [hpg']
    · rw [hlow g, if_neg hgv]
      exact (hle p).trans (h.low_path p hp g hg hpg hnear)

/-- The search is done with the function at the top, which stays on the stack. -/
theorem leave (hkept : Kept t) (h : Linked r t (v :: path)) (hv : t.lowOf v < t.num v)
    (hparent : ∀ p ∈ path.head?, t.lowOf p ≤ t.lowOf v) : Linked r t path := by
  obtain ⟨k, hk, hkv, -⟩ := h.low_reached v h.top_mem
  refine ⟨fun p hp => h.path_mem p (List.mem_cons_of_mem _ hp),
    (List.pairwise_cons.1 h.path_falling).2, h.low_le, h.low_reached, fun g hg hno => ?_,
    fun g hg => ?_, fun p hp => h.reaches p (List.mem_cons_of_mem _ hp),
    fun p hp g hg hpg hnear => ?_⟩
  · by_cases hgv : g = v
    · rwa [hgv]
    · exact h.left_low g hg fun hp => hno (List.mem_of_ne_of_mem hgv hp)
  · rcases Nat.lt_or_ge (t.num g) (t.num v) with hlt | hge
    · obtain ⟨p, hp, hle⟩ := h.covered g hg
      exact ⟨p, mem_of_num_lt hlt hp hle, hle⟩
    · obtain ⟨p, hp, hle⟩ := h.covered k hk
      exact ⟨p, mem_of_num_lt (by omega) hp hle, by omega⟩
  · rcases Nat.lt_or_ge (t.num g) (t.num v) with hlt | hge
    · refine h.low_path p (List.mem_cons_of_mem _ hp) g hg hpg fun q hq hqg => ?_
      exact hnear q (mem_of_num_lt hlt hq hqg) hqg
    · rcases path with _ | ⟨q, path⟩
      · cases hp
      have hq : q ∈ q :: path := List.mem_cons_self
      have hpq : p = q := by
        refine hkept.eq_of_num (h.path_mem p (List.mem_cons_of_mem _ hp))
          (h.path_mem q (List.mem_cons_of_mem _ hq)) (Nat.le_antisymm ?_ ?_)
        · rcases List.mem_cons.1 hp with rfl | hp
          · exact le_rfl
          · have hfalling := (List.pairwise_cons.1 h.path_falling).2
            exact ((List.pairwise_cons.1 hfalling).1 p hp).le
        · exact hnear q hq ((h.lt_top q hq).le.trans hge)
      rw [hpq]
      exact (hparent q rfl).trans (h.low_top hg hge)

/-- The function at the top leaves the stack with all that lies above it. -/
theorem close (hkept : Kept t) (h : Linked r t (v :: path)) : Linked r (t.close v) path := by
  obtain ⟨-, -, -, -, -, hmem⟩ := hkept.close_split h.top_mem
  have hold : ∀ {g}, g ∈ (t.close v).stack → g ∈ t.stack ∧ t.num g < t.num v := (hmem _).1
  refine ⟨fun p hp => (hmem p).2 ⟨h.path_mem p (List.mem_cons_of_mem _ hp), h.lt_top p hp⟩,
    (List.pairwise_cons.1 h.path_falling).2, fun g hg => h.low_le g (hold hg).1,
    fun g hg => ?_, fun g hg hno => ?_, fun g hg => ?_,
    fun p hp g hg => h.reaches p (List.mem_cons_of_mem _ hp) g (hold hg).1,
    fun p hp g hg hpg hnear => ?_⟩
  · obtain ⟨k, hk, heq, hgk⟩ := h.low_reached g (hold hg).1
    have hle := h.low_le g (hold hg).1
    exact ⟨k, (hmem k).2 ⟨hk, heq ▸ hle.trans_lt (hold hg).2⟩, heq, hgk⟩
  · refine h.left_low g (hold hg).1 fun hp => hno ?_
    exact mem_of_num_lt (hold hg).2 hp le_rfl
  · obtain ⟨p, hp, hle⟩ := h.covered g (hold hg).1
    exact ⟨p, mem_of_num_lt (hold hg).2 hp hle, hle⟩
  · refine h.low_path p (List.mem_cons_of_mem _ hp) g (hold hg).1 hpg fun q hq hqg => ?_
    exact hnear q (mem_of_num_lt (hold hg).2 hq hqg) hqg

end Linked

end Search

end Snapshot

end PhasedInlining
