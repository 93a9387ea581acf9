import PhasedInlining.Proofs.Code.Lookup

/-!
# What executing a function shows

Executing a function walks through its body. Most instructions show themselves to an observer. A
direct call of a function with a body shows nothing and has that body executed in its place, and so
may go on for ever; a return shows nothing either.

A body unfolds into another (`Unfolds`) if the second is what the first comes to once some
instructions that show nothing have been performed in advance. If every body of a module unfolds
into the body that another module has in its place, executions in the two show the same
(`agreeOn_of_unfolds`): performing in advance shortens an execution and changes nothing else.
-/

namespace PhasedInlining

/-- What an observer sees of an instruction. -/
inductive Observable where
  | op (text : String)
  | indirect
  | ref (function : FunctionId)
  /-- A call of a function that has no body or is not there. -/
  | external (callee : FunctionId)
deriving DecidableEq

namespace Module

def body? (m : Module) (f : FunctionId) : Option Body := (m.function? f).bind (·.body)

/-- What an instruction shows, and what is executed in its place. -/
def perform (m : Module) : Instr CallSiteId → Option Observable × Body
  | .op text => (some (.op text), [])
  | .call _ .indirect => (some .indirect, [])
  | .call _ (.direct f) =>
    match m.body? f with
    | some body => (none, body)
    | none => (some (.external f), [])
  | .ref f => (some (.ref f), [])
  | .ret => (none, [])

/-- What `n` steps of an execution show, and whether it ends with them. -/
def exec (m : Module) : Nat → Body → List Observable × Bool
  | _, [] => ([], true)
  | 0, _ :: _ => ([], false)
  | n + 1, i :: is =>
    let (shown, body) := m.perform i
    let (rest, ended) := m.exec n (body ++ is)
    (shown.toList ++ rest, ended)

/-- Executing the function shows `p` first. -/
def Emits (m : Module) (f : FunctionId) (p : List Observable) : Prop :=
  ∃ n, p <+: (m.exec n (m.instrsOf f)).1

/-- Executing the function comes to an end. -/
def Finishes (m : Module) (f : FunctionId) : Prop := ∃ n, (m.exec n (m.instrsOf f)).2 = true

/-- The two modules cannot be told apart by executing the function. -/
def AgreeOn (m m' : Module) (f : FunctionId) : Prop :=
  (∀ p, m.Emits f p ↔ m'.Emits f p) ∧ (m.Finishes f ↔ m'.Finishes f)

theorem AgreeOn.refl (m : Module) (f : FunctionId) : m.AgreeOn m f := ⟨fun _ => .rfl, .rfl⟩

theorem AgreeOn.trans {m₁ m₂ m₃ : Module} {f : FunctionId} (h : m₁.AgreeOn m₂ f)
    (h' : m₂.AgreeOn m₃ f) : m₁.AgreeOn m₃ f :=
  ⟨fun p => (h.1 p).trans (h'.1 p), h.2.trans h'.2⟩

section Exec

variable (m : Module)

@[simp]
theorem exec_nil (n : Nat) : m.exec n [] = ([], true) := by
  cases n <;> rfl

@[simp]
theorem exec_zero_cons (i : Instr CallSiteId) (is : Body) : m.exec 0 (i :: is) = ([], false) := rfl

@[simp]
theorem exec_succ_cons (n : Nat) (i : Instr CallSiteId) (is : Body) :
    m.exec (n + 1) (i :: is) = ((m.perform i).1.toList ++ (m.exec n ((m.perform i).2 ++ is)).1,
      (m.exec n ((m.perform i).2 ++ is)).2) := rfl

theorem instrsOf_eq_getD (f : FunctionId) : m.instrsOf f = (m.body? f).getD [] := by
  rcases h : m.function? f with _ | g <;> simp [instrsOf, body?, h, Function.instrs]

end Exec

/-- The second body is the first with some instructions that show nothing performed in advance, and
with other handles. -/
inductive Unfolds (m : Module) : Body → Body → Prop
  | nil : Unfolds m [] []
  | cons {i j : Instr CallSiteId} {is js : Body} (h : i.map (fun _ => ()) = j.map fun _ => ()) :
    Unfolds m is js → Unfolds m (i :: is) (j :: js)
  | perform {i : Instr CallSiteId} {is js : Body} (h : (m.perform i).1 = none) :
    Unfolds m ((m.perform i).2 ++ is) js → Unfolds m (i :: is) js

namespace Unfolds

variable {m : Module}

theorem refl : ∀ is : Body, m.Unfolds is is
  | [] => .nil
  | _ :: is => .cons rfl (refl is)

theorem rel_refl : ∀ b : Option Body, Option.Rel m.Unfolds b b
  | none => .none
  | some is => .some (refl is)

theorem append {is js ks ls : Body} (h : m.Unfolds is js) (h' : m.Unfolds ks ls) :
    m.Unfolds (is ++ ks) (js ++ ls) := by
  induction h with
  | nil => exact h'
  | cons h _ ih => exact .cons h ih
  | perform h _ ih =>
    refine .perform h ?_
    rwa [List.append_assoc] at ih

/-- The copy of a body that a splice makes. -/
theorem copy (next : Nat) : ∀ is : Body,
    m.Unfolds is (Body.issue next (Body.withoutReturns is)) := by
  intro is
  induction is generalizing next with
  | nil => exact .nil
  | cons i is ih =>
    cases i with
    | op t => exact .cons rfl (ih next)
    | call s t => exact .cons rfl (ih (next + 1))
    | ref f => exact .cons rfl (ih next)
    | ret => exact .perform rfl (ih next)

end Unfolds

section Simulation

variable {m m' : Module} (hm : ∀ f, Option.Rel m.Unfolds (m.body? f) (m'.body? f))
include hm

/-- Instructions that differ only in their handle show the same in both modules, and what they have
executed unfolds. -/
theorem perform_unfolds {i j : Instr CallSiteId} (h : i.map (fun _ => ()) = j.map fun _ => ()) :
    (m.perform i).1 = (m'.perform j).1 ∧ m.Unfolds (m.perform i).2 (m'.perform j).2 := by
  rcases i with t | ⟨s, t⟩ | f | _ <;> rcases j with t' | ⟨s', t'⟩ | f' | _ <;>
    simp only [Instr.map, reduceCtorEq, Instr.op.injEq, Instr.call.injEq, Instr.ref.injEq,
      true_and] at h
  · subst h
    exact ⟨rfl, .nil⟩
  · subst h
    rcases t with f | _
    · have hf := hm f
      simp only [perform]
      rcases h1 : m.body? f with _ | b <;> rcases h2 : m'.body? f with _ | b' <;>
        rw [h1, h2] at hf <;> cases hf
      · exact ⟨rfl, .nil⟩
      · exact ⟨rfl, by assumption⟩
    · exact ⟨rfl, .nil⟩
  · subst h
    exact ⟨rfl, .nil⟩
  · exact ⟨rfl, .nil⟩

theorem exec_forward : ∀ (n : Nat) {is js : Body}, m.Unfolds is js →
    ∃ k, (m.exec n is).1 <+: (m'.exec k js).1 ∧ ((m.exec n is).2 = true → (m'.exec k js).2 = true)
  | n, _, _, .nil => ⟨0, by simp⟩
  | 0, _, _, .cons _ _ => ⟨0, by simp⟩
  | 0, _, _, .perform _ _ => ⟨0, by simp⟩
  | n + 1, i :: is, j :: js, .cons h hu => by
    obtain ⟨hshown, hrest⟩ := perform_unfolds hm h
    obtain ⟨k, h1, h2⟩ := exec_forward n (hrest.append hu)
    refine ⟨k + 1, ?_, ?_⟩
    · rw [exec_succ_cons, exec_succ_cons, hshown]
      exact (List.prefix_append_right_inj _).2 h1
    · rw [exec_succ_cons, exec_succ_cons]
      exact h2
  | n + 1, i :: is, js, .perform h hu => by
    obtain ⟨k, h1, h2⟩ := exec_forward n hu
    refine ⟨k, ?_, ?_⟩
    · rw [exec_succ_cons, h]
      exact h1
    · rw [exec_succ_cons]
      exact h2

/-- The inner induction is on how the body unfolds: what was performed in advance costs a step each,
and shows nothing. -/
theorem exec_backward (n : Nat) : ∀ {is js : Body}, m.Unfolds is js →
    ∃ k, (m'.exec n js).1 <+: (m.exec k is).1
      ∧ ((m'.exec n js).2 = true → (m.exec k is).2 = true) := by
  induction n with
  | zero =>
    intro is js hu
    induction hu with
    | nil => exact ⟨0, by simp⟩
    | cons _ _ _ => exact ⟨0, by simp⟩
    | perform h _ ih =>
      obtain ⟨k, h1, h2⟩ := ih
      refine ⟨k + 1, ?_, ?_⟩
      · rw [exec_succ_cons, h]
        exact h1
      · rw [exec_succ_cons]
        exact h2
  | succ n ihn =>
    intro is js hu
    induction hu with
    | nil => exact ⟨0, by simp⟩
    | cons h hu _ =>
      obtain ⟨hshown, hrest⟩ := perform_unfolds hm h
      obtain ⟨k, h1, h2⟩ := ihn (hrest.append hu)
      refine ⟨k + 1, ?_, ?_⟩
      · rw [exec_succ_cons, exec_succ_cons, hshown]
        exact (List.prefix_append_right_inj _).2 h1
      · rw [exec_succ_cons, exec_succ_cons]
        exact h2
    | perform h _ ih =>
      obtain ⟨k, h1, h2⟩ := ih
      refine ⟨k + 1, ?_, ?_⟩
      · rw [exec_succ_cons, h]
        exact h1
      · rw [exec_succ_cons]
        exact h2

/-- If bodies unfold into bodies, executions show the same. -/
theorem agreeOn_of_unfolds (f : FunctionId) : m.AgreeOn m' f := by
  have hf : m.Unfolds (m.instrsOf f) (m'.instrsOf f) := by
    have hf := hm f
    rw [instrsOf_eq_getD, instrsOf_eq_getD]
    generalize m.body? f = b, m'.body? f = b' at hf
    cases hf with
    | none => exact .nil
    | some h => exact h
  refine ⟨fun p => ⟨?_, ?_⟩, ?_, ?_⟩
  · rintro ⟨n, hp⟩
    obtain ⟨k, h1, -⟩ := exec_forward hm n hf
    exact ⟨k, hp.trans h1⟩
  · rintro ⟨n, hp⟩
    obtain ⟨k, h1, -⟩ := exec_backward hm n hf
    exact ⟨k, hp.trans h1⟩
  · rintro ⟨n, hn⟩
    obtain ⟨k, -, h2⟩ := exec_forward hm n hf
    exact ⟨k, h2 hn⟩
  · rintro ⟨n, hn⟩
    obtain ⟨k, -, h2⟩ := exec_backward hm n hf
    exact ⟨k, h2 hn⟩

end Simulation

section Splice

variable {m m' : Module} {s : CallSiteId} {caller callee : FunctionId} {g : Function}

theorem Splices.body?_caller (h : m.Splices s m' caller callee g) :
    m.body? caller = some (m.instrsOf caller) := by
  obtain ⟨k, hk, -⟩ := h.caller_eq
  obtain ⟨pre, post, hbody, -⟩ := h.body
  rcases hb : k.body with _ | b
  · simp [instrsOf, hk, Function.instrs, hb] at hbody
  · simp [body?, instrsOf, hk, Function.instrs, hb]

theorem Splices.body?_caller_after (h : m.Splices s m' caller callee g) :
    m'.body? caller = some (m'.instrsOf caller) := by
  obtain ⟨k, -, hk⟩ := h.caller_eq
  simp [body?, hk]

theorem Splices.body?_callee (h : m.Splices s m' caller callee g) :
    m.body? callee = some g.instrs := by
  obtain ⟨b, hb⟩ := Option.isSome_iff_exists.1 h.hasBody
  simp [body?, h.callee_eq, Function.instrs, hb]

theorem Splices.body?_other (h : m.Splices s m' caller callee g) {f : FunctionId}
    (hf : f ≠ caller) : m'.body? f = m.body? f := by
  rw [body?, body?, h.other f hf]

/-- Up to the call the bodies are one, and the call is performed in advance. -/
theorem Splices.body?_unfolds (h : m.Splices s m' caller callee g) (f : FunctionId) :
    Option.Rel m.Unfolds (m.body? f) (m'.body? f) := by
  by_cases hf : f = caller
  · subst hf
    obtain ⟨pre, post, hbody, -, hbody'⟩ := h.body
    rw [h.body?_caller, h.body?_caller_after, hbody, hbody', List.append_assoc]
    refine .some ((Unfolds.refl pre).append (.perform (by simp [perform, h.body?_callee]) ?_))
    simp only [perform, h.body?_callee]
    exact (Unfolds.copy _ _).append (.refl post)
  · rw [h.body?_other hf]
    exact Unfolds.rel_refl _

/-- Splicing a call shows no difference to anybody. -/
theorem agreeOn_splice (m : Module) (s : CallSiteId) (f : FunctionId) :
    m.AgreeOn (m.splice s).2 f := by
  rcases splice_cases m s with ⟨r, -, h⟩ | ⟨caller, callee, g, -, -, -, h⟩
  · rw [h]
    exact .refl m f
  · exact agreeOn_of_unfolds h.body?_unfolds f

end Splice

section Removal

variable {m : Module} {f : FunctionId}

/-- No body calls the function or refers to it, its own included. -/
def Unused (m : Module) (f : FunctionId) : Prop := ∀ g, f ∉ m.usesIn g

theorem perform_remove {i : Instr CallSiteId} (hi : i.used? ≠ some f) :
    (m.remove f).2.perform i = m.perform i := by
  rcases i with _ | ⟨s, c | _⟩ | _ | _ <;> try rfl
  have hc : c ≠ f := by simpa [Instr.used?, CallTarget.callee?] using hi
  simp only [perform, body?, function?_remove, if_neg hc]

theorem Unused.perform (hf : m.Unused f) (i : Instr CallSiteId) :
    f ∉ Body.uses (m.perform i).2 := by
  rcases i with _ | ⟨s, c | _⟩ | _ | _ <;> try simp [Module.perform, Body.uses]
  have hc := hf c
  rw [usesIn, instrsOf_eq_getD] at hc
  rcases hb : m.body? c with _ | b
  · simp
  · simpa [hb, Body.uses] using hc

/-- Execution never leaves the bodies, and none of them uses the function. -/
theorem exec_remove (hf : m.Unused f) :
    ∀ (n : Nat) {is : Body}, f ∉ Body.uses is → (m.remove f).2.exec n is = m.exec n is
  | _, [], _ => by simp
  | 0, _ :: _, _ => rfl
  | n + 1, i :: is, h => by
    have hi : i.used? ≠ some f := fun hi => h (List.mem_filterMap.2 ⟨i, List.mem_cons_self, hi⟩)
    have hnext : f ∉ Body.uses ((m.perform i).2 ++ is) := by
      rw [Body.uses, List.filterMap_append, List.mem_append, not_or]
      refine ⟨hf.perform i, fun his => h ?_⟩
      obtain ⟨j, hj, hu⟩ := List.mem_filterMap.1 his
      exact List.mem_filterMap.2 ⟨j, List.mem_cons_of_mem _ hj, hu⟩
    rw [exec_succ_cons, exec_succ_cons, perform_remove hi, exec_remove hf n hnext]

/-- Removing a function that nothing uses shows no difference to the others. -/
theorem agreeOn_remove (hf : m.Unused f) {g : FunctionId} (hg : g ≠ f) :
    m.AgreeOn (m.remove f).2 g := by
  have hexec : ∀ n,
      (m.remove f).2.exec n ((m.remove f).2.instrsOf g) = m.exec n (m.instrsOf g) := by
    intro n
    rw [instrsOf_remove, if_neg hg, exec_remove hf n (hf g)]
  exact ⟨fun p => by simp only [Emits, hexec], by simp only [Finishes, hexec]⟩

end Removal

end Module

end PhasedInlining
