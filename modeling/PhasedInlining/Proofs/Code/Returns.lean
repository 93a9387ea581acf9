import Mathlib.Data.List.TakeWhile
import PhasedInlining.Proofs.Code.Meaning

/-!
# Returns that end the body they stand in

Here a return leaves the innermost of the bodies in execution (`Module.execFrames`), so what stands
behind the first return of a body is not executed. This is how a module is executed whose bodies are
cut off at their first returns, if there a return does nothing (`Module.sameDisplay_iff`).
-/

namespace PhasedInlining

namespace Body

/-- The instructions in front of the first return. -/
def live (is : Body) : Body := is.takeWhile (!·.isRet)

/-- The instructions behind the first return, without the returns among them. -/
def behind (is : Body) : Body := withoutReturns (is.dropWhile (!·.isRet))

variable {is js : Body}

theorem live_eq_self : live is = is ↔ ∀ i ∈ is, i.isRet = false := by
  simp [live, List.takeWhile_eq_self_iff]

theorem isRet_of_mem_live {i : Instr CallSiteId} (hi : i ∈ live is) : i.isRet = false := by
  simpa using List.mem_takeWhile_imp hi

theorem isRet_of_mem_withoutReturns {i : Instr CallSiteId} (hi : i ∈ withoutReturns is) :
    i.isRet = false := by
  simpa using (List.mem_filter.1 hi).2

theorem withoutReturns_live (is : Body) : withoutReturns (live is) = live is :=
  List.filter_eq_self.2 fun i hi => by simp [isRet_of_mem_live hi]

theorem withoutReturns_eq (is : Body) : withoutReturns is = live is ++ behind is := by
  have hsplit : withoutReturns (live is ++ is.dropWhile (!·.isRet)) = live is ++ behind is := by
    rw [withoutReturns, List.filter_append, ← withoutReturns, withoutReturns_live]
    rfl
  rwa [live, List.takeWhile_append_dropWhile] at hsplit

theorem live_append (his : ∀ i ∈ is, i.isRet = false) : live (is ++ js) = is ++ live js :=
  List.takeWhile_append_of_pos fun i hi => by simp [his i hi]

theorem live_append_of_ret {i : Instr CallSiteId} (hi : i ∈ is) (hret : i.isRet) :
    live (is ++ js) = live is := by
  induction is with
  | nil => cases hi
  | cons k is ih =>
    rcases hk : k.isRet with _ | _
    · have hi : i ∈ is := by
        refine (List.mem_cons.1 hi).resolve_left ?_
        rintro rfl
        exact nomatch hk.symm.trans hret
      simpa [live, hk] using ih hi
    · simp [live, hk]

theorem issue_append (next : Nat) (is js : Body) :
    issue next (is ++ js) = issue next is ++ issue (next + callCount is) js := by
  induction is generalizing next with
  | nil => rfl
  | cons i is ih =>
    cases i with
    | call s t =>
      have hcount : callCount (.call s t :: is) = callCount is + 1 := List.countP_cons_of_pos rfl
      simp only [List.cons_append, issue, ih, hcount, Nat.add_assoc, Nat.add_comm 1]
    | op t => exact congrArg _ (ih next)
    | ref f => exact congrArg _ (ih next)
    | ret => exact congrArg _ (ih next)

theorem isRet_of_mem_issue {next : Nat} (his : ∀ i ∈ is, i.isRet = false) {i : Instr CallSiteId}
    (hi : i ∈ issue next is) : i.isRet = false := by
  induction is generalizing next with
  | nil => cases hi
  | cons k is ih =>
    have hk := his k List.mem_cons_self
    have hrest := fun i hi => his i (List.mem_cons_of_mem _ hi)
    cases k with
    | op t => exact (List.mem_cons.1 hi).elim (fun heq => heq ▸ rfl) (ih hrest)
    | call s t => exact (List.mem_cons.1 hi).elim (fun heq => heq ▸ rfl) (ih hrest)
    | ref f => exact (List.mem_cons.1 hi).elim (fun heq => heq ▸ rfl) (ih hrest)
    | ret => cases hk

end Body

namespace Module

/-- What `n` steps of an execution show, and whether it ends with them. The frames are what is left
of the bodies in execution, the innermost first, and a return leaves the innermost one. -/
def execFrames (m : Module) : Nat → List Body → List Observable × Bool
  | _, [] => ([], true)
  | 0, _ :: _ => ([], false)
  | n + 1, [] :: frames => m.execFrames n frames
  | n + 1, (i :: is) :: frames =>
    if i.isRet then m.execFrames n frames
    else
      let (shown, body) := m.perform i
      let (rest, ended) := m.execFrames n (body :: is :: frames)
      (shown.toList ++ rest, ended)

/-- Executing the function shows `p` first, where returns end the bodies that they stand in. -/
def Displays (m : Module) (f : FunctionId) (p : List Observable) : Prop :=
  ∃ n, p <+: (m.execFrames n [m.instrsOf f]).1

/-- Executing the function comes to an end, where returns end the bodies that they stand in. -/
def Completes (m : Module) (f : FunctionId) : Prop :=
  ∃ n, (m.execFrames n [m.instrsOf f]).2 = true

/-- The two modules cannot be told apart by executing the function, where returns end the bodies
that they stand in. -/
def SameDisplay (m m' : Module) (f : FunctionId) : Prop :=
  (∀ p, m.Displays f p ↔ m'.Displays f p) ∧ (m.Completes f ↔ m'.Completes f)

/-- Executing the body shows nothing and comes to an end. -/
def Silent (m : Module) (is : Body) : Prop := ∃ n, m.execFrames n [is] = ([], true)

/-- The module with every body cut off at its first return. -/
def cut (m : Module) : Module :=
  { m with slots := m.slots.map (Option.map fun g => { g with body := g.body.map Body.live }) }

section Cut

variable (m : Module)

theorem body?_cut (f : FunctionId) : m.cut.body? f = (m.body? f).map Body.live := by
  simp only [body?, function?, cut, Array.getElem?_map]
  rcases m.slots[f.index]? with _ | _ | g <;> rfl

theorem instrsOf_cut (f : FunctionId) : m.cut.instrsOf f = Body.live (m.instrsOf f) := by
  rw [instrsOf_eq_getD, instrsOf_eq_getD, body?_cut]
  cases m.body? f <;> rfl

theorem perform_cut (i : Instr CallSiteId) :
    m.cut.perform i = ((m.perform i).1, Body.live (m.perform i).2) := by
  rcases i with _ | ⟨_, f | _⟩ | _ | _ <;> try rfl
  simp only [perform, body?_cut]
  cases m.body? f <;> rfl

theorem execFrames_succ_cons {i : Instr CallSiteId} (hi : i.isRet = false) (n : Nat) (is : Body)
    (frames : List Body) : m.execFrames (n + 1) ((i :: is) :: frames)
      = ((m.perform i).1.toList ++ (m.execFrames n ((m.perform i).2 :: is :: frames)).1,
        (m.execFrames n ((m.perform i).2 :: is :: frames)).2) := by
  simp only [execFrames, hi, Bool.false_eq_true, if_false]

/-- Frames are left in some steps until there is an instruction to perform, or none is left. -/
theorem leave_frames : ∀ frames : List Body, ∃ k,
    (frames.flatMap Body.live = [] ∧ ∀ n, m.execFrames (n + k) frames = ([], true))
      ∨ ∃ i is rest, i.isRet = false
        ∧ frames.flatMap Body.live = i :: (Body.live is ++ rest.flatMap Body.live)
        ∧ ∀ n, m.execFrames (n + k) frames = m.execFrames n ((i :: is) :: rest)
  | [] => ⟨0, .inl ⟨rfl, fun n => by cases n <;> rfl⟩⟩
  | [] :: frames => by
    obtain ⟨k, hk⟩ := leave_frames frames
    exact ⟨k + 1, hk⟩
  | (i :: is) :: frames => by
    rcases hi : i.isRet with _ | _
    · exact ⟨0, .inr ⟨i, is, frames, hi, by simp [Body.live, hi], fun _ => rfl⟩⟩
    · obtain ⟨k, hk⟩ := leave_frames frames
      refine ⟨k + 1, ?_⟩
      simpa [Body.live, hi, ← Nat.add_assoc, execFrames] using hk

theorem execFrames_of_exec (n : Nat) : ∀ frames : List Body, ∃ k,
    (m.execFrames k frames).1 = (m.cut.exec n (frames.flatMap Body.live)).1
      ∧ ((m.cut.exec n (frames.flatMap Body.live)).2 = true →
        (m.execFrames k frames).2 = true) := by
  induction n with
  | zero =>
    intro frames
    obtain ⟨k, ⟨hnil, hk⟩ | ⟨i, is, rest, -, hcons, hk⟩⟩ := m.leave_frames frames
    · exact ⟨0 + k, by rw [hk, hnil]; simp⟩
    · exact ⟨0 + k, by rw [hk, hcons]; simp [execFrames]⟩
  | succ n ih =>
    intro frames
    obtain ⟨k, ⟨hnil, hk⟩ | ⟨i, is, rest, hi, hcons, hk⟩⟩ := m.leave_frames frames
    · exact ⟨0 + k, by rw [hk, hnil]; simp⟩
    · obtain ⟨l, hshown, hended⟩ := ih ((m.perform i).2 :: is :: rest)
      refine ⟨l + 1 + k, ?_⟩
      rw [hk, m.execFrames_succ_cons hi, hcons, exec_succ_cons, perform_cut]
      simp only [List.flatMap_cons] at hshown hended
      exact ⟨by rw [hshown], hended⟩

/-- Leaving a frame is a step of its own, and else the steps are the same. -/
theorem exec_of_execFrames : ∀ (n : Nat) (frames : List Body), ∃ k,
    (m.cut.exec k (frames.flatMap Body.live)).1 = (m.execFrames n frames).1
      ∧ ((m.execFrames n frames).2 = true → (m.cut.exec k (frames.flatMap Body.live)).2 = true)
  | n, [] => ⟨0, by cases n <;> simp [execFrames]⟩
  | 0, is :: frames => by
    refine ⟨0, ?_, by simp [execFrames]⟩
    cases (is :: frames).flatMap Body.live <;> simp [execFrames]
  | n + 1, [] :: frames => exec_of_execFrames n frames
  | n + 1, (i :: is) :: frames => by
    rcases hi : i.isRet with _ | _
    · obtain ⟨k, hshown, hended⟩ := exec_of_execFrames n ((m.perform i).2 :: is :: frames)
      have hlive : ((i :: is) :: frames).flatMap Body.live
          = i :: (Body.live is ++ frames.flatMap Body.live) := by
        simp [Body.live, hi]
      refine ⟨k + 1, ?_⟩
      rw [hlive, exec_succ_cons, perform_cut, m.execFrames_succ_cons hi]
      simp only [List.flatMap_cons] at hshown hended
      exact ⟨by rw [hshown], hended⟩
    · obtain ⟨k, hk⟩ := exec_of_execFrames n frames
      exact ⟨k, by simpa [execFrames, Body.live, hi] using hk⟩

theorem displays_iff {f : FunctionId} {p : List Observable} :
    m.Displays f p ↔ m.cut.Emits f p := by
  rw [Displays, Emits, instrsOf_cut]
  constructor
  · rintro ⟨n, hp⟩
    obtain ⟨k, hk, -⟩ := m.exec_of_execFrames n [m.instrsOf f]
    rw [List.flatMap_singleton] at hk
    exact ⟨k, by rwa [hk]⟩
  · rintro ⟨n, hp⟩
    obtain ⟨k, hk, -⟩ := m.execFrames_of_exec n [m.instrsOf f]
    rw [List.flatMap_singleton] at hk
    exact ⟨k, by rwa [hk]⟩

theorem completes_iff {f : FunctionId} : m.Completes f ↔ m.cut.Finishes f := by
  rw [Completes, Finishes, instrsOf_cut]
  constructor
  · rintro ⟨n, hn⟩
    obtain ⟨k, -, hk⟩ := m.exec_of_execFrames n [m.instrsOf f]
    rw [List.flatMap_singleton] at hk
    exact ⟨k, hk hn⟩
  · rintro ⟨n, hn⟩
    obtain ⟨k, -, hk⟩ := m.execFrames_of_exec n [m.instrsOf f]
    rw [List.flatMap_singleton] at hk
    exact ⟨k, hk hn⟩

/-- To a module with cut off bodies early returns make no difference. -/
theorem sameDisplay_iff {m' : Module} {f : FunctionId} :
    m.SameDisplay m' f ↔ m.cut.AgreeOn m'.cut f := by
  simp only [SameDisplay, AgreeOn, displays_iff, completes_iff]

end Cut

end Module

end PhasedInlining
