import Mathlib.Data.List.Perm.Basic
import PhasedInlining.Proofs.Code.Meaning
import PhasedInlining.Proofs.Code.WellFormed
import PhasedInlining.Proofs.Lowering.Passes
import PhasedInlining.Target.Plain

/-!
# Sweeping removes what nothing uses, and all of it

The counts that a sweep keeps are at every moment the numbers of uses in the bodies that are left
(`Sweep.Inv`), so a function is visited exactly when its last use has gone. Therefore a sweep
removes only unused functions (`sweep_keeps`), and when it is through every function of the phase
that is left and not protected has a use (`sweep_used`).
-/

namespace PhasedInlining

open CallSource Target

theorem isMarked_of_isRemovable {σ : Type} [Target σ] {phase : Nat} {t : σ} {f : FunctionId}
    (h : isRemovable phase t f = .ok true) : isMarked phase t f = .ok true := by
  obtain ⟨b, hb, hr⟩ := map_eq_ok.1 h
  rw [hb, (Bool.and_eq_true_iff.1 hr).1]

namespace Module

variable {m : Module} {f g : FunctionId}

/-- How often a function is used, in all bodies together. -/
def useCount (m : Module) (f : FunctionId) : Nat := (m.functionIds.flatMap m.usesIn).count f

theorem contains_of_mem_usesIn (h : g ∈ m.usesIn f) : m.contains f := by
  obtain ⟨i, hi, -⟩ := List.mem_filterMap.1 h
  exact contains_of_mem hi

theorem useCount_eq_zero (h : m.WellFormed) : m.useCount f = 0 ↔ m.Unused f := by
  simp only [useCount, List.count_eq_zero, List.mem_flatMap, h.mem_functionIds, not_exists, not_and,
    Unused]
  exact forall_congr' fun g => ⟨fun hg hf => hg (contains_of_mem_usesIn hf) hf, fun hg _ => hg⟩

theorem functionIds_remove (h : m.WellFormed) (hf : m.contains f) :
    m.functionIds.Perm (f :: (m.remove f).2.functionIds) := by
  have h' := h.remove f
  refine (List.perm_ext_iff_of_nodup h.functionIds_nodup (List.nodup_cons.2 ⟨?_, ?_⟩)).2 ?_
  · simp [h'.mem_functionIds, contains_remove]
  · exact h'.functionIds_nodup
  · intro g
    rw [List.mem_cons, h.mem_functionIds, h'.mem_functionIds, contains_remove]
    by_cases hg : g = f
    · simp [hg, hf]
    · simp [hg]

/-- With a function go the uses in its body. -/
theorem useCount_remove (h : m.WellFormed) (hf : m.contains f) (g : FunctionId) :
    (m.usesIn f).count g + (m.remove f).2.useCount g = m.useCount g := by
  have hperm := (functionIds_remove h hf).flatMap_right m.usesIn
  have hrest : (m.remove f).2.functionIds.flatMap (m.remove f).2.usesIn
      = (m.remove f).2.functionIds.flatMap m.usesIn := by
    refine List.flatMap_congr fun k hk => ?_
    rw [(h.remove f).mem_functionIds, contains_remove] at hk
    have hk' : k ≠ f := by simpa using (Bool.and_eq_true_iff.1 hk).2
    rw [usesIn, usesIn, instrsOf_remove, if_neg hk']
  rw [useCount, useCount, hperm.count_eq, List.flatMap_cons, List.count_append, hrest]

/-- `m'` is `m` without some of its functions, none of which is used by what is left. -/
structure Prunes (m m' : Module) : Prop where
  wf : m'.WellFormed
  function?_eq : ∀ f, m'.contains f → m'.function? f = m.function? f
  nextSite_eq : m'.nextSite = m.nextSite
  closed : ∀ {f c}, c ∈ m'.usesIn f → m.contains c → m'.contains c

theorem Prunes.refl (h : m.WellFormed) : m.Prunes m := ⟨h, fun _ _ => rfl, rfl, fun _ h => h⟩

theorem Prunes.remove {m₀ : Module} (h : m₀.Prunes m) (hf : m.Unused f) :
    m₀.Prunes (m.remove f).2 := by
  refine ⟨h.wf.remove f, fun g hg => ?_, ?_, fun {g c} hc hlive => ?_⟩
  · rw [contains_remove, Bool.and_eq_true, decide_eq_true_eq] at hg
    rw [function?_remove, if_neg hg.2]
    exact h.function?_eq g hg.1
  · rw [nextSite_remove, h.nextSite_eq]
  · rw [usesIn, instrsOf_remove] at hc
    split_ifs at hc
    · cases hc
    · have hne : c ≠ f := by
        rintro rfl
        exact hf g hc
      rw [contains_remove, h.closed hc hlive]
      simpa using hne

theorem isRemovable_remove (phase : Nat) :
    isRemovable phase (m.remove f).2 g
      = if g = f then .ok false else isRemovable phase m g := by
  have htag : phaseTag? (m.remove f).2 g = if g = f then none else phaseTag? m g := by
    simp only [phaseTag?, function?_remove]
    split_ifs <;> rfl
  have hprot : g ≠ f → isProtected (m.remove f).2 g = isProtected m g := by
    intro hg
    simp only [isProtected, function?_remove, if_neg hg]
  simp only [isRemovable, isMarked, phaseOf, htag]
  split_ifs with hg
  · rfl
  · rw [hprot hg]

theorem contains_of_isMarked {phase : Nat} (h : isMarked phase m f = .ok true) :
    m.contains f := by
  rcases hf : m.function? f with _ | k
  · simp [isMarked, phaseOf, phaseTag?, hf, Except.map] at h
  · simp [contains, hf]

theorem contains_of_isRemovable {phase : Nat} (h : isRemovable phase m f = .ok true) :
    m.contains f :=
  contains_of_isMarked (isMarked_of_isRemovable h)

end Module

namespace Sweep

variable {c : FunctionId → Nat} {uses : Std.TreeMap FunctionId Nat}

/-- The table has the numbers that `c` gives, and no entry where that is zero. -/
def Counted (uses : Std.TreeMap FunctionId Nat) (c : FunctionId → Nat) : Prop :=
  ∀ f : FunctionId, uses[f]? = if c f = 0 then none else some (c f)

theorem Counted.congr {c' : FunctionId → Nat} (h : Counted uses c) (hc : ∀ f, c f = c' f) :
    Counted uses c' :=
  funext hc ▸ h

theorem Counted.addUse (h : Counted uses c) (f : FunctionId) :
    Counted (Sweep.addUse uses f) fun g => c g + [f].count g := by
  intro g
  have hget : uses.getD f 0 = c f := by
    rw [Std.TreeMap.getD_eq_getD_getElem?, h f]
    split_ifs with hf <;> simp [hf]
  rw [Sweep.addUse, Std.TreeMap.getElem?_insert, hget, h g]
  simp only [Std.LawfulEqCmp.compare_eq_iff_eq, List.count_singleton, beq_iff_eq]
  by_cases hfg : f = g
  · simp [hfg]
  · simp [hfg]

theorem Counted.foldl_addUse : ∀ (fs : List FunctionId) {uses : Std.TreeMap FunctionId Nat}
    {c : FunctionId → Nat}, Counted uses c →
      Counted (fs.foldl Sweep.addUse uses) fun g => c g + fs.count g
  | [], _, _, h => by simpa using h
  | f :: fs, _, c, h => by
    have := Counted.foldl_addUse fs (h.addUse f)
    simp only [Nat.add_assoc, ← List.count_append, List.singleton_append] at this
    exact this

section Release

variable {σ : Type}

/-- `s'` is `s` with the uses in `fs` released. Functions that have lost their last use with that
stand behind the others. -/
structure Released (c : FunctionId → Nat) (fs : List FunctionId) (s s' : Sweep σ) : Prop where
  toRun : s'.toRun = s.toRun
  removed : s'.removed = s.removed
  counted : Counted s'.uses fun g => c g - fs.count g
  unused : ∃ new, s'.unused.toList = s.unused.toList ++ new
    ∧ ∀ g, g ∈ new ↔ 0 < c g ∧ c g = fs.count g
  size : s'.unused.size + s'.uses.size = s.unused.size + s.uses.size

theorem released_one {s : Sweep σ} {f : FunctionId} (h : Counted s.uses c) (hf : 0 < c f) :
    Released c [f] s (s.release f) := by
  have hget : s.uses[f]? = some (c f) := by rw [h f, if_neg (by omega)]
  have hmem : s.uses.contains f = true := by
    rw [Std.TreeMap.contains_eq_isSome_getElem?, hget]
    rfl
  have hc : ∀ g, (if f = g then c f - 1 else c g) = c g - [f].count g := by
    intro g
    rw [List.count_singleton]
    by_cases hfg : f = g <;> simp [hfg]
  unfold release
  simp only [hget]
  split_ifs with h1
  · have hcf : c f = 1 := by omega
    refine ⟨rfl, rfl, Counted.congr (fun g => ?_) hc, ⟨[f], by simp, fun g => ?_⟩, ?_⟩
    · rw [Std.TreeMap.getElem?_erase, h g]
      simp only [Std.LawfulEqCmp.compare_eq_iff_eq]
      by_cases hfg : f = g <;> simp [hfg, ← hcf]
    · rw [List.count_singleton, List.mem_singleton]
      by_cases hfg : f = g
      · simp [← hfg, hcf]
      · simp only [Ne.symm hfg, beq_iff_eq, hfg, ↓reduceIte, false_iff]
        omega
    · have hpos : s.uses.size ≠ 0 := by
        have := Std.TreeMap.isEmpty_eq_false_of_contains hmem
        simpa [Std.TreeMap.isEmpty_eq_size_eq_zero] using this
      simp only [Array.size_push, Std.TreeMap.size_erase, if_pos hmem]
      omega
  · refine ⟨rfl, rfl, Counted.congr (fun g => ?_) hc, ⟨[], by simp, fun g => ?_⟩, ?_⟩
    · rw [Std.TreeMap.getElem?_insert, h g]
      simp only [Std.LawfulEqCmp.compare_eq_iff_eq]
      by_cases hfg : f = g
      · rw [if_pos hfg, if_pos hfg, if_neg (by omega)]
      · simp [hfg]
    · rw [List.count_singleton]
      by_cases hfg : f = g
      · simp only [← hfg, beq_self_eq_true, ↓reduceIte, List.not_mem_nil, false_iff]
        omega
      · simp only [beq_iff_eq, hfg, ↓reduceIte, List.not_mem_nil, false_iff]
        omega
    · simp only [Std.TreeMap.size_insert, if_pos hmem]

theorem released_foldl : ∀ (fs : List FunctionId) {c : FunctionId → Nat} {s : Sweep σ},
    Counted s.uses c → (∀ g, fs.count g ≤ c g) → Released c fs s (fs.foldl release s)
  | [], c, s, h, _ => by
    refine ⟨rfl, rfl, by simpa using h, ⟨[], by simp, fun g => ?_⟩, rfl⟩
    simp only [List.not_mem_nil, List.count_nil, false_iff]
    omega
  | f :: fs, c, s, h, hle => by
    have hf : 0 < c f := by
      have := hle f
      rw [List.count_cons_self] at this
      omega
    have h1 := released_one h hf
    have hle' : ∀ g, fs.count g ≤ c g - [f].count g := by
      intro g
      have := hle g
      rw [List.count_cons] at this
      rw [List.count_singleton]
      omega
    have h2 := released_foldl fs h1.counted hle'
    obtain ⟨new₁, hnew₁, hmem₁⟩ := h1.unused
    obtain ⟨new₂, hnew₂, hmem₂⟩ := h2.unused
    have hcount : ∀ g, (f :: fs).count g = [f].count g + fs.count g := by
      intro g
      rw [← List.singleton_append, List.count_append]
    refine ⟨h2.toRun.trans h1.toRun, h2.removed.trans h1.removed, ?_, ⟨new₁ ++ new₂, ?_, ?_⟩,
      h2.size.trans h1.size⟩
    · exact h2.counted.congr fun g => by rw [Nat.sub_sub, ← hcount g]
    · rw [List.foldl_cons, hnew₂, hnew₁, List.append_assoc]
    · intro g
      rw [List.mem_append, hmem₁, hmem₂, hcount]
      have := hle' g
      omega

end Release

section Visit

variable {phase : Nat}

/-- Between two visits the table counts the uses that are left, the functions without any are
listed, and of those before place `i` none is there to be removed. -/
structure Inv (phase i : Nat) (s : Sweep Module) : Prop where
  wf : s.target.WellFormed
  counted : Counted s.uses s.target.useCount
  unused : ∀ f ∈ s.unused.toList, s.target.useCount f = 0
  listed : ∀ f, s.target.contains f → s.target.useCount f = 0 → f ∈ s.unused.toList
  visited : ∀ f ∈ s.unused.toList.take i, isRemovable phase s.target f ≠ .ok true

theorem counted_start (r : Run Module) : Counted (start r).uses r.target.useCount := by
  have huses : (start r).uses
      = (r.target.functionIds.flatMap r.target.usesIn).foldl addUse ∅ := by
    rw [List.foldl_flatMap]
    rfl
  rw [huses]
  exact (Counted.foldl_addUse _ (c := fun _ => 0) fun f => by simp).congr fun g => by
    rw [Nat.zero_add]
    rfl

theorem mem_unused_start {r : Run Module} (h : r.target.WellFormed) {f : FunctionId} :
    f ∈ (start r).unused.toList ↔ r.target.contains f ∧ r.target.useCount f = 0 := by
  have hnone : (start r).uses.contains f = false ↔ r.target.useCount f = 0 := by
    rw [Std.TreeMap.contains_eq_isSome_getElem?, counted_start r f]
    split_ifs with h0 <;> simp [h0]
  have hlist : (start r).unused.toList
      = r.target.functionIds.filter fun g => !(start r).uses.contains g := by
    simp [start, functionIds]
  rw [hlist, List.mem_filter, h.mem_functionIds, Bool.not_eq_true', hnone]

theorem inv_start (r : Run Module) (h : r.target.WellFormed) : Inv phase 0 (start r) :=
  ⟨h, counted_start r, fun _ hf => ((mem_unused_start h).1 hf).2,
    fun _ h1 h2 => (mem_unused_start h).2 ⟨h1, h2⟩, fun _ hf => by simp at hf⟩

theorem visit_of_ok {s : Sweep Module} {f : FunctionId} {b : Bool}
    (h : isRemovable phase s.target f = .ok b) :
    s.visit phase f = .ok (if b then s.remove phase f else s) := by
  simp [visit, h, Run.check, Except.map]

theorem change_erase (s : Sweep Module) (f : FunctionId) :
    s.change (erase · f) = (s.target.contains f, { s with target := (s.target.remove f).2 }) := by
  have hremoved : (s.target.remove f).1.isSome = s.target.contains f := by
    unfold Module.remove Module.contains
    split <;> rename_i hf <;> rw [hf]
  rw [← hremoved]
  rfl

theorem target_remove (phase : Nat) (s : Sweep Module) (f : FunctionId) :
    (s.remove phase f).target = (s.target.remove f).2 := by
  unfold remove
  simp only [change_erase]
  rcases s.target.contains f with _ | _
  · rfl
  · simp only [(foldl_release_keeps _ _).1]
    rfl

theorem removed_remove (phase : Nat) {s : Sweep Module} {f : FunctionId}
    (hf : s.target.contains f) :
    (s.remove phase f).removed = s.removed.push ⟨f, displayName s.target f⟩ := by
  unfold remove
  simp only [change_erase, hf, (foldl_release_keeps _ _).2]

/-- Removing a function releases what its body used. -/
theorem remove_released (phase : Nat) {s : Sweep Module} {f : FunctionId}
    (hwf : s.target.WellFormed) (hc : Counted s.uses s.target.useCount) (hf : s.target.contains f) :
    ∃ s₁ : Sweep Module, s₁.uses = s.uses ∧ s₁.unused = s.unused
      ∧ Released s.target.useCount (s.target.usesIn f) s₁ (s.remove phase f) := by
  have hle : ∀ k, (s.target.usesIn f).count k ≤ s.target.useCount k := fun k => by
    have := Module.useCount_remove hwf hf k
    omega
  unfold remove
  simp only [change_erase, hf]
  refine ⟨_, ?_, ?_, released_foldl (usesIn s.target f) ?_ hle⟩
  · rfl
  · rfl
  · exact hc

theorem Inv.remove {i : Nat} {s : Sweep Module} {f : FunctionId} (h : Inv phase i s)
    (hi : s.unused[i]? = some f) (hf : isRemovable phase s.target f = .ok true) :
    Inv phase (i + 1) (s.remove phase f)
      ∧ (s.remove phase f).unused.size + (s.remove phase f).uses.size
        = s.unused.size + s.uses.size := by
  have hlive := Module.contains_of_isRemovable hf
  obtain ⟨s₁, huses, hunused, hr⟩ := remove_released phase h.wf h.counted hlive
  obtain ⟨new, hnew, hmem⟩ := hr.unused
  have ht := target_remove phase s f
  have hcount : ∀ g, s.target.useCount g - (s.target.usesIn f).count g
      = (s.target.remove f).2.useCount g := fun g => by
    have := Module.useCount_remove h.wf hlive g
    omega
  rw [hunused] at hnew
  have hilen : i < s.unused.toList.length := by
    rw [Array.length_toList]
    exact (Array.getElem?_eq_some_iff.1 hi).1
  refine ⟨⟨?_, ?_, ?_, ?_, ?_⟩, by rw [hr.size, huses, hunused]⟩
  · rw [ht]
    exact h.wf.remove f
  · rw [ht]
    exact hr.counted.congr hcount
  · intro g hg
    rw [ht, ← hcount]
    rw [hnew, List.mem_append] at hg
    rcases hg with hg | hg
    · rw [h.unused g hg, Nat.zero_sub]
    · rw [((hmem g).1 hg).2, Nat.sub_self]
  · intro g hg h0
    rw [ht] at hg h0
    rw [hnew, List.mem_append]
    by_cases hg0 : s.target.useCount g = 0
    · rw [Module.contains_remove, Bool.and_eq_true] at hg
      exact .inl (h.listed g hg.1 hg0)
    · have := Module.useCount_remove h.wf hlive g
      exact .inr ((hmem g).2 (by omega))
  · intro g hg
    rw [ht, Module.isRemovable_remove]
    split_ifs with hgf
    · simp
    rw [hnew, List.take_append_of_le_length (by omega), List.take_add_one, List.mem_append] at hg
    rcases hg with hg | hg
    · exact h.visited g hg
    · rw [Array.getElem?_toList, hi] at hg
      exact absurd (by simpa using hg) hgf

theorem Inv.skip {i : Nat} {s : Sweep Module} {f : FunctionId} (h : Inv phase i s)
    (hi : s.unused[i]? = some f) (hf : isRemovable phase s.target f ≠ .ok true) :
    Inv phase (i + 1) s := by
  refine ⟨h.wf, h.counted, h.unused, h.listed, fun g hg => ?_⟩
  rw [List.take_add_one, List.mem_append, Array.getElem?_toList, hi] at hg
  rcases hg with hg | hg
  · exact h.visited g hg
  · have : g = f := by simpa using hg
    rwa [this]

/-- All that is listed has been visited. -/
theorem Inv.finish {i : Nat} {s : Sweep Module} (h : Inv phase i s) (hi : s.unused.size ≤ i) :
    Inv phase s.unused.size s := by
  refine ⟨h.wf, h.counted, h.unused, h.listed, fun f hf => h.visited f ?_⟩
  rw [List.take_of_length_le (by simpa using hi)]
  exact List.mem_of_mem_take hf

end Visit

section Run

variable {phase : Nat}

/-- The visits remove unused functions of the phase only. If they come to an end, there is nothing
left to visit: a function that loses its last use moves from the table to the list. -/
theorem visitFrom_ends {P : Sweep Module → Prop}
    (hP : ∀ s f, s.target.WellFormed → P s → s.target.Unused f →
      isRemovable phase s.target f = .ok true → P (s.remove phase f)) :
    ∀ (fuel i : Nat) (s : Sweep Module), Inv phase i s → P s →
      s.unused.size + s.uses.size ≤ i + fuel →
      Ends (fun s' : Sweep Module => P s' ∧ Inv phase s'.unused.size s')
        (fun halt => ∃ s', P s' ∧ halt.toRun = s'.toRun) (visitFrom phase fuel i s)
  | 0, i, s, h, hs, hfuel => ⟨hs, h.finish (by omega)⟩
  | fuel + 1, i, s, h, hs, hfuel => by
    unfold visitFrom
    split
    · rename_i hi
      exact ⟨hs, h.finish (Array.getElem?_eq_none_iff.1 hi)⟩
    · rename_i f hi
      rcases hr : isRemovable phase s.target f with fault | b
      · have hv : s.visit phase f = .error { s.toRun with fault } := by
          simp [visit, hr, Run.check, Except.map]
        rw [hv]
        exact ⟨s, hs, rfl⟩
      · rw [visit_of_ok hr]
        cases b with
        | false =>
          exact visitFrom_ends hP fuel (i + 1) s (h.skip hi (by simp [hr])) hs (by omega)
        | true =>
          obtain ⟨hinv, hsize⟩ := h.remove hi hr
          have hunused : s.target.Unused f := (Module.useCount_eq_zero h.wf).1
            (h.unused f (by rw [List.mem_iff_getElem?]; exact ⟨i, by simpa using hi⟩))
          exact visitFrom_ends hP fuel (i + 1) _ hinv (hP s f h.wf hs hunused hr)
            (by simp only [↓reduceIte]; omega)

/-- A sweep keeps whatever is kept by removing unused functions of the phase that are not
protected. -/
theorem sweep_keeps {P : Module → Prop}
    (hP : ∀ m f, m.WellFormed → P m → m.Unused f → isRemovable phase m f = .ok true →
      P (m.remove f).2) (r : Run Module) (hwf : r.target.WellFormed) (h : P r.target) :
    Keeps P (sweep phase r) := by
  have hvisits := visitFrom_ends (P := fun s => P s.target)
    (fun s f hs hPs hunused hf => by
      rw [target_remove]
      exact hP s.target f hs hPs hunused hf)
    ((start r).unused.size + (start r).uses.size) 0 (start r) (inv_start r hwf) h (by omega)
  refine Ends.map (hvisits.imp (fun _ hs => hs) fun halt hhalt => ?_) fun _ hs => hs.1
  obtain ⟨s, hs, hrun⟩ := hhalt
  rwa [hrun]

end Run

/-- After a sweep every function of the phase that is not protected has a use. -/
theorem sweep_used {phase : Nat} {r r' : Run Module} {removed : List RemovedFunction}
    (hwf : r.target.WellFormed) (h : sweep phase r = .ok (r', removed)) {f : FunctionId}
    (hf : isRemovable phase r'.target f = .ok true) : ¬ r'.target.Unused f := by
  obtain ⟨s, hv, hr⟩ := map_eq_ok.1 h
  cases hr
  have hinv : Inv phase 0 (start r) := inv_start r hwf
  have hs := visitFrom_ends (P := fun _ => True) (fun _ _ _ _ _ _ => trivial) _ 0 (start r) hinv
    trivial (Nat.le_of_eq (Nat.zero_add _).symm)
  rw [hv] at hs
  intro hunused
  refine hs.2.visited f ?_ hf
  rw [List.take_of_length_le (by simp)]
  exact hs.2.listed f (Module.contains_of_isRemovable hf)
    ((Module.useCount_eq_zero hs.2.wf).2 hunused)

theorem visitFrom_idle {σ : Type} [Target σ] {phase : Nat} {s : Sweep σ}
    (h : ∀ f ∈ s.unused.toList, s.visit phase f = .ok s) :
    ∀ fuel i, visitFrom phase fuel i s = .ok s
  | 0, _ => rfl
  | fuel + 1, i => by
    unfold visitFrom
    split
    · rfl
    · rename_i f hi
      rw [h f (Array.mem_toList_iff.2 (Array.mem_of_getElem? hi))]
      exact visitFrom_idle h fuel (i + 1)

/-- Where no function of the phase can be removed, a sweep does nothing. -/
theorem sweep_idle {phase : Nat} {r : Run Module} (hwf : r.target.WellFormed)
    (hok : ∀ f, r.target.contains f → ∃ b, isRemovable phase r.target f = .ok b)
    (hused : ∀ f, isRemovable phase r.target f = .ok true → ¬ r.target.Unused f) :
    sweep phase r = .ok (r, []) := by
  have hidle : ∀ f ∈ (start r).unused.toList, (start r).visit phase f = .ok (start r) := by
    intro f hf
    obtain ⟨hlive, h0⟩ := (mem_unused_start hwf).1 hf
    obtain ⟨b, hb⟩ := hok f hlive
    rw [visit_of_ok (show isRemovable phase (start r).target f = .ok b from hb)]
    cases b with
    | false => rw [if_neg Bool.false_ne_true]
    | true => exact absurd ((Module.useCount_eq_zero hwf).1 h0) (hused f hb)
  exact map_eq_ok.2 ⟨start r, visitFrom_idle hidle _ _, rfl⟩

end Sweep

end PhasedInlining
