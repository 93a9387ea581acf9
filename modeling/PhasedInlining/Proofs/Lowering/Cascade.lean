import Mathlib.Order.Bounds.Defs
import PhasedInlining.Proofs.Lowering.Faults

/-!
# A sweep removes the least set of functions that goes with its users

A function of the phase that is not protected can go when every function whose body uses it goes.
Among the sets that are closed under this (`Module.Cascades`) there is a least one, and a sweep
removes it. What it removes comes behind its users in the list (`Module.Sheds`), so by induction
along the list it is in every closed set. Conversely what is left has a user that is left, so the
list is itself closed.
-/

namespace PhasedInlining

open CallSource Target

namespace Module

variable {phase : Nat} {m m' : Module} {f : FunctionId} {fs : List FunctionId}

section RemoveAll

/-- The module without the functions of the list, removed one after the other. -/
def removeAll (m : Module) (fs : List FunctionId) : Module :=
  fs.foldl (fun m f => (m.remove f).2) m

theorem removeAll_concat (m : Module) (fs : List FunctionId) (f : FunctionId) :
    m.removeAll (fs ++ [f]) = ((m.removeAll fs).remove f).2 := by
  rw [removeAll, List.foldl_append]
  rfl

theorem function?_removeAll (m : Module) (f : FunctionId) (fs : List FunctionId) :
    (m.removeAll fs).function? f = if f ∈ fs then none else m.function? f := by
  induction fs using List.reverseRecOn with
  | nil => rfl
  | append_singleton fs k ih =>
    rw [removeAll_concat, function?_remove, ih]
    by_cases hf : f = k <;> simp [hf]

theorem isRemovable_removeAll (phase : Nat) (m : Module) (f : FunctionId) (fs : List FunctionId) :
    isRemovable phase (m.removeAll fs) f = if f ∈ fs then .ok false else isRemovable phase m f := by
  induction fs using List.reverseRecOn with
  | nil => rfl
  | append_singleton fs k ih =>
    rw [removeAll_concat, isRemovable_remove, ih]
    by_cases hf : f = k <;> simp [hf]

theorem mem_usesIn_removeAll {c : FunctionId} :
    c ∈ (m.removeAll fs).usesIn f ↔ f ∉ fs ∧ c ∈ m.usesIn f := by
  simp only [usesIn, instrsOf, function?_removeAll]
  by_cases hf : f ∈ fs <;> simp [hf, Body.uses]

end RemoveAll

section Closure

/-- The set has each function of the phase that is not protected as soon as it has all the
functions whose bodies call it or refer to it. -/
def Cascades (phase : Nat) (m : Module) (S : Set FunctionId) : Prop :=
  ∀ f, phaseOf m f = .ok (some phase) → isProtected m f = false →
    (∀ g, f ∈ m.usesIn g → g ∈ S) → f ∈ S

/-- `m'` is `m` without `fs`, functions of the phase that are not protected, where each of them has
been removed after all that use it. -/
structure Sheds (phase : Nat) (m : Module) (fs : List FunctionId) (m' : Module) : Prop where
  eq_removeAll : m' = m.removeAll fs
  removable : ∀ f ∈ fs, isRemovable phase m f = .ok true
  users_first : ∀ pre f post, fs = pre ++ f :: post → ∀ g, f ∈ m.usesIn g → g ∈ pre

namespace Sheds

theorem refl (m : Module) : m.Sheds phase [] m := by
  refine ⟨rfl, fun f hf => absurd hf List.not_mem_nil, fun pre f post h => ?_⟩
  simp at h

/-- One removal: what still uses the function would be among what is left. -/
theorem remove (h : m.Sheds phase fs m') (hunused : m'.Unused f)
    (hf : isRemovable phase m' f = .ok true) : m.Sheds phase (fs ++ [f]) (m'.remove f).2 := by
  have hnot : f ∉ fs := by
    intro hmem
    rw [h.eq_removeAll, isRemovable_removeAll, if_pos hmem] at hf
    cases hf
  have husers : ∀ g, f ∈ m.usesIn g → g ∈ fs := by
    intro g hg
    by_contra hgone
    refine hunused g ?_
    rw [h.eq_removeAll]
    exact mem_usesIn_removeAll.2 ⟨hgone, hg⟩
  refine ⟨?_, fun k hk => ?_, fun pre k post hsplit => ?_⟩
  · rw [removeAll_concat, ← h.eq_removeAll]
  · rcases List.mem_append.1 hk with hk | hk
    · exact h.removable k hk
    · rw [List.mem_singleton.1 hk]
      rwa [h.eq_removeAll, isRemovable_removeAll, if_neg hnot] at hf
  · rcases List.eq_nil_or_concat post with rfl | ⟨post, l, rfl⟩
    · obtain ⟨rfl, hk⟩ := List.append_inj' hsplit rfl
      rwa [← List.singleton_inj.1 hk]
    · rw [List.concat_eq_append, ← List.cons_append, ← List.append_assoc] at hsplit
      exact h.users_first pre k post (List.append_inj' hsplit rfl).1

/-- What has been removed is in every closed set, since what used it was removed before. -/
theorem subset (h : m.Sheds phase fs m') {S : Set FunctionId} (hS : m.Cascades phase S) :
    ∀ f ∈ fs, f ∈ S := by
  have hprefix : ∀ pre post, fs = pre ++ post → ∀ f ∈ pre, f ∈ S := by
    intro pre
    induction pre using List.reverseRecOn with
    | nil => exact fun _ _ f hf => absurd hf List.not_mem_nil
    | append_singleton pre k ih =>
      intro post hsplit f hf
      rw [List.append_assoc, List.singleton_append] at hsplit
      have hpre := ih _ hsplit
      rcases List.mem_append.1 hf with hf | hf
      · exact hpre f hf
      · rw [List.mem_singleton.1 hf]
        obtain ⟨hphase, hprotected⟩ := isRemovable_iff.1 (h.removable k (by simp [hsplit]))
        exact hS k hphase hprotected fun g hg => hpre g (h.users_first pre k post hsplit g hg)
  exact hprefix fs [] (List.append_nil fs).symm

/-- Where all that is left of the phase is used, nothing that could go has been left. -/
theorem cascades (h : m.Sheds phase fs m')
    (hused : ∀ f, isRemovable phase m' f = .ok true → ¬ m'.Unused f) :
    m.Cascades phase {f | f ∈ fs} := by
  intro f hphase hprotected husers
  by_contra hf
  replace hf : f ∉ fs := hf
  refine hused f ?_ fun g hg => ?_
  · rw [h.eq_removeAll, isRemovable_removeAll, if_neg hf]
    exact isRemovable_iff.2 ⟨hphase, hprotected⟩
  · rw [h.eq_removeAll, mem_usesIn_removeAll] at hg
    exact hg.1 (husers g hg.2)

end Sheds

end Closure

end Module

open PhasedInlining.Module

section Sweeping

variable {phase : Nat} {r r' : Run Module} (hwf : r.target.WellFormed)
include hwf

theorem Sweep.sweep_sheds {removed : List RemovedFunction}
    (h : sweep phase r = .ok (r', removed)) :
    r.target.Sheds phase (removed.map (·.id)) r'.target := by
  obtain ⟨s, hv, hs⟩ := map_eq_ok.1 h
  cases hs
  have hends := visitFrom_ends
    (P := fun s => r.target.Sheds phase (s.removed.toList.map (·.id)) s.target)
    (fun s f _ hs hunused (hf : isRemovable phase s.target f = .ok true) => by
      rw [target_remove, removed_remove phase (contains_of_isRemovable hf), Array.toList_push,
        List.map_append]
      exact hs.remove hunused hf)
    _ 0 (start r) (inv_start r hwf) (.refl _) (Nat.le_of_eq (Nat.zero_add _).symm)
  rw [hv] at hends
  exact hends.1

/-- Only a tag that cannot be read stops a sweep, and a sweep changes no tag. -/
theorem Sweep.exists_sweep (phase : Nat) (hlegible : r.target.Legible) :
    ∃ r' removed, sweep phase r = .ok (r', removed) := by
  have hframe := frames_sweep (m := r.target) (List.mem_singleton_self phase) r ⟨hwf, .refl _⟩
  have hhalts : Ends (fun _ => True) Halt.Unreadable (sweep phase r) :=
    (visitFrom_halts _ _ _).map fun _ _ => trivial
  rcases hs : sweep phase r with halt | ⟨r', removed⟩
  · rw [hs] at hframe hhalts
    exact absurd hhalts (hlegible.not_unreadable hframe.2)
  · exact ⟨r', removed, rfl⟩

/-- A sweep of a module whose tags can all be read comes to an end. It has then removed the least
set of functions that has each unprotected function of the phase along with all its users, each of
them once and after its users. The other functions are as they were, and those of the phase that
are not protected have a use that is left. -/
theorem sweep_removes_least (phase : Nat) (hlegible : r.target.Legible) :
    ∃ r' removed, sweep phase r = .ok (r', removed)
      ∧ IsLeast {S | r.target.Cascades phase S} {f | f ∈ removed.map (·.id)}
      ∧ r.target.Accounts r'.target removed
      ∧ r.target.Sheds phase (removed.map (·.id)) r'.target
      ∧ (∀ f, r'.target.function? f
        = if f ∈ removed.map (·.id) then none else r.target.function? f)
      ∧ ∀ f, phaseOf r'.target f = .ok (some phase) → isProtected r'.target f = false →
        ∃ g, r'.target.contains g ∧ f ∈ r'.target.usesIn g := by
  obtain ⟨r', removed, hsweep⟩ := Sweep.exists_sweep hwf phase hlegible
  have hsheds := Sweep.sweep_sheds hwf hsweep
  have hused : ∀ f, isRemovable phase r'.target f = .ok true → ¬ r'.target.Unused f :=
    fun f => Sweep.sweep_used hwf hsweep
  refine ⟨r', removed, hsweep, ⟨hsheds.cascades hused, fun S hS => hsheds.subset hS⟩,
    (Sweep.sweep_accounts hwf hsweep).2, hsheds, fun f => ?_, fun f hphase hprotected => ?_⟩
  · rw [hsheds.eq_removeAll, function?_removeAll]
  · obtain ⟨g, hg⟩ := not_forall_not.1 (hused f (isRemovable_iff.2 ⟨hphase, hprotected⟩))
    exact ⟨g, contains_of_mem_usesIn hg, hg⟩

end Sweeping

/-- `leaf` is used by `middle` only and `middle` by `top` only, twice. `shared` is used by `top` and
by `loop`, which calls itself. Nothing uses `main`, which is protected. -/
def Module.nested : Module :=
  (build "nested" [
    (({ name := "leaf" } : Function).withPhase 1, none),
    (({ name := "middle" } : Function).withPhase 1, some [.call () (.direct ⟨0⟩), .ret]),
    (({ name := "top" } : Function).withPhase 1,
      some [.call () (.direct ⟨1⟩), .ref ⟨1⟩, .ref ⟨3⟩, .call () (.direct ⟨9⟩)]),
    (({ name := "shared" } : Function).withPhase 1, none),
    (({ name := "loop" } : Function).withPhase 1, some [.call () (.direct ⟨4⟩), .ref ⟨3⟩]),
    ((({ name := "main" } : Function).withPhase 1).withProtection, none)]).2

theorem Module.nested_wellFormed : nested.WellFormed := .build _ _

theorem Module.nested_legible : nested.Legible :=
  .of_findSome? (o := {}) nested_wellFormed (by decide +kernel)

/-- `top` goes, and with it `middle` and then `leaf`, while `loop` keeps itself and `shared`. -/
theorem sweep_removes_least_nested : ∃ r' removed,
    sweep 1 { target := nested } = .ok (r', removed)
      ∧ removed.map (·.name) = ["top", "middle", "leaf"]
      ∧ IsLeast {S | nested.Cascades 1 S} {⟨2⟩, ⟨1⟩, ⟨0⟩}
      ∧ r'.target.function? ⟨4⟩ = nested.function? ⟨4⟩ := by
  have hrun : (sweep 1 ({ target := nested } : Run Module)).toOption.any (fun e =>
      e.2.map (·.id) = [⟨2⟩, ⟨1⟩, ⟨0⟩] ∧ e.2.map (·.name) = ["top", "middle", "leaf"]) = true := by
    decide +kernel
  obtain ⟨r', removed, hsweep, hleast, -, -, hrest, -⟩ :=
    sweep_removes_least (r := { target := nested }) nested_wellFormed 1 nested_legible
  rw [hsweep] at hrun
  obtain ⟨hids, hnames⟩ := of_decide_eq_true hrun
  rw [hids] at hleast hrest
  refine ⟨r', removed, hsweep, hnames, ?_, (hrest ⟨4⟩).trans (if_neg (by decide))⟩
  convert hleast using 1
  ext f
  simp

end PhasedInlining
