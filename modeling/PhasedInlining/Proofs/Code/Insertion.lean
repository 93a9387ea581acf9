import PhasedInlining.Proofs.Code.Meaning

/-!
# Instructions inserted into a body

An execution that comes to an end is made up of executions of the parts of its body, each of which
comes to an end (`Module.exec_append`). So it can be said what instructions contribute that stand in
one of two bodies only (`Module.Inserts`). If they show nothing and come to an end, nobody sees a
difference. If the body comes to an end and shows the same with them and without them, they show
nothing: what is executed besides shows with them at least what it shows without
(`Module.Inserts.runs`).
-/

namespace PhasedInlining

namespace Module

/-- Executing the body shows `t` and comes to an end. -/
def Runs (m : Module) (is : Body) (t : List Observable) : Prop := ∃ n, m.exec n is = (t, true)

section Runs

variable {m : Module} {is js : Body} {t u : List Observable}

theorem exec_mono {n : Nat} (h : m.exec n is = (t, true)) (k : Nat) :
    m.exec (n + k) is = (t, true) := by
  induction n generalizing is t with
  | zero =>
    rcases is with _ | ⟨i, is⟩
    · simpa using h
    · simp at h
  | succ n ih =>
    rcases is with _ | ⟨i, is⟩
    · simpa using h
    · rw [exec_succ_cons] at h
      obtain ⟨rfl, hended⟩ := Prod.mk.inj h
      rw [Nat.succ_add, exec_succ_cons, ih (Prod.ext rfl hended)]

theorem exec_prefix (m : Module) (n k : Nat) (is : Body) :
    (m.exec n is).1 <+: (m.exec (n + k) is).1 := by
  induction n generalizing is with
  | zero => cases is <;> simp
  | succ n ih =>
    rcases is with _ | ⟨i, is⟩
    · simp
    · rw [Nat.succ_add, exec_succ_cons, exec_succ_cons]
      exact (List.prefix_append_right_inj _).2 (ih _)

theorem Runs.unique (h : m.Runs is t) (h' : m.Runs is u) : t = u := by
  obtain ⟨n, hn⟩ := h
  obtain ⟨k, hk⟩ := h'
  have hsame := (exec_mono hn k).symm.trans (Nat.add_comm n k ▸ exec_mono hk n)
  exact (Prod.mk.inj hsame).1

theorem Runs.cons {i : Instr CallSiteId} (h : m.Runs ((m.perform i).2 ++ is) t) :
    m.Runs (i :: is) ((m.perform i).1.toList ++ t) := by
  obtain ⟨n, hn⟩ := h
  exact ⟨n + 1, by rw [exec_succ_cons, hn]⟩

theorem Runs.append (h : m.Runs is t) (h' : m.Runs js u) : m.Runs (is ++ js) (t ++ u) := by
  obtain ⟨n, hn⟩ := h
  induction n generalizing is t with
  | zero =>
    rcases is with _ | ⟨i, is⟩
    · obtain rfl : [] = t := by simpa using hn
      exact h'
    · simp at hn
  | succ n ih =>
    rcases is with _ | ⟨i, is⟩
    · obtain rfl : [] = t := by simpa using hn
      exact h'
    · rw [exec_succ_cons] at hn
      obtain ⟨rfl, hended⟩ := Prod.mk.inj hn
      rw [List.append_assoc, List.cons_append]
      refine Runs.cons ?_
      rw [← List.append_assoc]
      exact ih (Prod.ext rfl hended)

/-- What ends has each of its parts end, within the same number of steps. -/
theorem exec_append {n : Nat} (h : m.exec n (is ++ js) = (t, true)) :
    ∃ t₁ t₂, m.exec n is = (t₁, true) ∧ m.exec n js = (t₂, true) ∧ t = t₁ ++ t₂ := by
  induction n generalizing is t with
  | zero =>
    rcases is with _ | ⟨i, is⟩
    · exact ⟨[], t, by simp, h, rfl⟩
    · simp at h
  | succ n ih =>
    rcases is with _ | ⟨i, is⟩
    · exact ⟨[], t, by simp, h, rfl⟩
    · rw [List.cons_append, exec_succ_cons, ← List.append_assoc] at h
      obtain ⟨rfl, hended⟩ := Prod.mk.inj h
      obtain ⟨t₁, t₂, h₁, h₂, heq⟩ := ih (Prod.ext rfl hended)
      refine ⟨(m.perform i).1.toList ++ t₁, t₂, ?_, exec_mono h₂ 1, ?_⟩
      · rw [exec_succ_cons, h₁]
      · exact (congrArg _ heq).trans (List.append_assoc _ _ _).symm

theorem Runs.emits_iff {f : FunctionId} (h : m.Runs (m.instrsOf f) t) {p : List Observable} :
    m.Emits f p ↔ p <+: t := by
  obtain ⟨n, hn⟩ := h
  constructor
  · rintro ⟨k, hp⟩
    have hle := m.exec_prefix k n (m.instrsOf f)
    rw [Nat.add_comm, exec_mono hn k] at hle
    exact hp.trans hle
  · exact fun hp => ⟨n, by rwa [hn]⟩

theorem Finishes.runs {f : FunctionId} (h : m.Finishes f) : ∃ t, m.Runs (m.instrsOf f) t := by
  obtain ⟨n, hn⟩ := h
  exact ⟨_, n, Prod.ext rfl hn⟩

theorem AgreeOn.symm {m' : Module} {f : FunctionId} (h : m.AgreeOn m' f) : m'.AgreeOn m f :=
  ⟨fun p => (h.1 p).symm, h.2.symm⟩

/-- What comes to an end in one of two modules that agree does so in the other, and shows the
same. -/
theorem AgreeOn.runs {m' : Module} {f : FunctionId} (h : m.AgreeOn m' f)
    (hrun : m.Runs (m.instrsOf f) t) : m'.Runs (m'.instrsOf f) t := by
  obtain ⟨n, hn⟩ := hrun
  obtain ⟨u, hu⟩ := (h.2.1 ⟨n, by rw [hn]⟩).runs
  have htu : t <+: u := hu.emits_iff.1 ((h.1 t).1 (Runs.emits_iff ⟨n, hn⟩ |>.2 List.prefix_rfl))
  have hut : u <+: t := (Runs.emits_iff ⟨n, hn⟩).1 ((h.1 u).2 (hu.emits_iff.2 List.prefix_rfl))
  rwa [htu.eq_of_length_le hut.length_le]

theorem perform_of_map_eq (m : Module) {i j : Instr CallSiteId}
    (h : i.map (fun _ => ()) = j.map fun _ => ()) : m.perform i = m.perform j := by
  rcases i with t | ⟨s, t⟩ | f | _ <;> rcases j with t' | ⟨s', t'⟩ | f' | _ <;>
    simp only [Instr.map, reduceCtorEq, Instr.op.injEq, Instr.call.injEq, Instr.ref.injEq,
      true_and] at h
  · rw [h]
  · subst h
    cases t <;> rfl
  · rw [h]
  · rfl

/-- Handles make no difference to an execution. -/
theorem exec_of_draft_eq (m : Module) : ∀ (n : Nat) {is js : Body},
    Body.draft is = Body.draft js → m.exec n is = m.exec n js
  | n, [], [], _ => rfl
  | 0, _ :: _, _ :: _, _ => rfl
  | n + 1, i :: is, j :: js, h => by
    obtain ⟨hi, his⟩ := List.cons.inj h
    have hnext : Body.draft ((m.perform j).2 ++ is) = Body.draft ((m.perform j).2 ++ js) := by
      rw [Body.draft_append, Body.draft_append]
      exact congrArg _ his
    rw [exec_succ_cons, exec_succ_cons, m.perform_of_map_eq hi, exec_of_draft_eq m n hnext]

end Runs

section Inserts

/-- `m'` is `m` with `ks` inserted into the body of `f`. -/
structure Inserts (m m' : Module) (f : FunctionId) (is ks js : Body) : Prop where
  body : m.body? f = some (is ++ js)
  body' : m'.body? f = some (is ++ ks ++ js)
  other : ∀ g, g ≠ f → m'.body? g = m.body? g

variable {m m' : Module} {f : FunctionId} {is ks js : Body}

/-- Instructions that show nothing and come to an end can be performed in advance. -/
theorem Unfolds.silent {n : Nat} (h : m.exec n ks = ([], true)) (hu : m.Unfolds is js) :
    m.Unfolds (ks ++ is) js := by
  induction n generalizing ks with
  | zero =>
    rcases ks with _ | ⟨k, ks⟩
    · exact hu
    · simp at h
  | succ n ih =>
    rcases ks with _ | ⟨k, ks⟩
    · exact hu
    · rw [exec_succ_cons] at h
      obtain ⟨hshown, hended⟩ := Prod.mk.inj h
      obtain ⟨hk, hrest⟩ := List.append_eq_nil_iff.1 hshown
      have hnext := ih (Prod.ext hrest hended)
      rw [List.append_assoc] at hnext
      exact .perform (Option.toList_eq_nil_iff.1 hk) hnext

namespace Inserts

variable (h : m.Inserts m' f is ks js)
include h

theorem agreeOn (hks : m'.Runs ks []) (g : FunctionId) : m'.AgreeOn m g := by
  refine agreeOn_of_unfolds (fun g => ?_) g
  by_cases hg : g = f
  · subst hg
    obtain ⟨n, hn⟩ := hks
    rw [h.body, h.body', List.append_assoc]
    exact .some ((Unfolds.refl is).append (.silent hn (.refl js)))
  · rw [h.other g hg]
    exact Unfolds.rel_refl _

theorem perform_eq {i : Instr CallSiteId} (hi : i.callee? ≠ some f) :
    m'.perform i = m.perform i := by
  rcases i with _ | ⟨s, c | _⟩ | _ | _ <;> try rfl
  have hc : c ≠ f := by simpa [Instr.callee?, CallTarget.callee?] using hi
  simp only [perform, h.other c hc]

/-- What comes to an end with the insertion does so without it, and shows no more. -/
theorem runs (n : Nat) : ∀ {ls : Body} {t : List Observable}, m'.exec n ls = (t, true) →
    ∃ u, m.Runs ls u ∧ u.Sublist t := by
  induction n with
  | zero =>
    rintro (_ | ⟨i, ls⟩) t ht
    · exact ⟨[], ⟨0, rfl⟩, List.nil_sublist t⟩
    · simp at ht
  | succ n ih =>
    rintro (_ | ⟨i, ls⟩) t ht
    · exact ⟨[], ⟨0, rfl⟩, List.nil_sublist t⟩
    · rw [exec_succ_cons] at ht
      obtain ⟨rfl, hended⟩ := Prod.mk.inj ht
      have hrest : m'.exec n ((m'.perform i).2 ++ ls)
        = ((m'.exec n ((m'.perform i).2 ++ ls)).1, true) := Prod.ext rfl hended
      by_cases hi : i.callee? = some f
      · obtain ⟨s, rfl⟩ := Instr.callee?_eq_some.1 hi
        have hperform : m.perform (.call s (.direct f)) = (none, is ++ js) := by
          simp [perform, h.body]
        have hperform' : m'.perform (.call s (.direct f)) = (none, is ++ ks ++ js) := by
          simp [perform, h.body']
        rw [hperform'] at hrest ⊢
        simp only [List.append_assoc] at hrest ⊢
        obtain ⟨t₁, t₂, h₁, h₂, heq⟩ := exec_append hrest
        obtain ⟨t₃, t₄, -, h₄, heq'⟩ := exec_append h₂
        obtain ⟨u₁, hu₁, hsub₁⟩ := ih h₁
        obtain ⟨u₂, hu₂, hsub₂⟩ := ih h₄
        have hrun : m.Runs ((m.perform (.call s (.direct f))).2 ++ ls) (u₁ ++ u₂) := by
          rw [hperform, List.append_assoc]
          exact hu₁.append hu₂
        refine ⟨_, hrun.cons, ?_⟩
        rw [hperform, heq, heq']
        exact hsub₁.append (hsub₂.trans (List.sublist_append_right _ _))
      · rw [h.perform_eq hi] at hrest ⊢
        obtain ⟨u, hu, hsub⟩ := ih hrest
        exact ⟨_, hu.cons, (List.Sublist.refl _).append hsub⟩

/-- If the body shows the same with and without the insertion, the insertion shows nothing. -/
theorem runs_nil {t : List Observable} (hrun : m.Runs (is ++ js) t)
    (hrun' : m'.Runs (is ++ ks ++ js) t) : m'.Runs ks [] := by
  obtain ⟨n, hn⟩ := hrun'
  obtain ⟨t₁₂, t₃, h₁₂, h₃, rfl⟩ := exec_append hn
  obtain ⟨t₁, t₂, h₁, h₂, rfl⟩ := exec_append h₁₂
  obtain ⟨u₁, hu₁, hsub₁⟩ := h.runs n h₁
  obtain ⟨u₃, hu₃, hsub₃⟩ := h.runs n h₃
  have hlength := congrArg List.length (hrun.unique (hu₁.append hu₃))
  have hle₁ := hsub₁.length_le
  have hle₃ := hsub₃.length_le
  simp only [List.length_append] at hlength
  obtain rfl : t₂ = [] := List.length_eq_zero_iff.1 (by omega)
  exact ⟨n, h₂⟩

end Inserts

end Inserts

end Module

end PhasedInlining
