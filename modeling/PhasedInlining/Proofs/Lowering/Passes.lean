import Mathlib.Tactic.SplitIfs
import PhasedInlining.Lowering.Phases

/-!
# What passes do to their target

A pass touches its target only by asking it to inline a call or to erase a function. So whatever
inlining keeps, both ways of inlining a phase keep (`bottomUp_keeps`, `rescan_keeps`), whatever
erasing keeps, a sweep keeps (`sweep_keeps_of_erase`), and what sweeping keeps besides, lowering
keeps (`lower_keeps`, `lowerAll_keeps`). This holds however the pass ends: `Ends P Q` says that a
computation ends in `P` or stops in `Q`. To its log a pass only adds (`EventLog.Grows`), and of
which kind the events are says `EventLog.Adds`.
-/

namespace PhasedInlining

section Ends

variable {ε α β : Type} {P P' : β → Prop} {Q Q' : ε → Prop}

/-- The computation ends with a value in `P`, or stops for a reason in `Q`. -/
def Ends (P : β → Prop) (Q : ε → Prop) : Except ε β → Prop
  | .ok b => P b
  | .error e => Q e

theorem Ends.imp {x : Except ε β} (hx : Ends P Q x) (hP : ∀ b, P b → P' b)
    (hQ : ∀ e, Q e → Q' e) : Ends P' Q' x := by
  rcases x with e | b
  · exact hQ e hx
  · exact hP b hx

theorem Ends.bind {R : α → Prop} {x : Except ε α} {f : α → Except ε β} (hx : Ends R Q x)
    (hf : ∀ a, R a → Ends P Q (f a)) : Ends P Q (x.bind f) := by
  rcases x with e | a
  · exact hx
  · exact hf a hx

theorem Ends.map {R : α → Prop} {x : Except ε α} {f : α → β} (hx : Ends R Q x)
    (hf : ∀ a, R a → P (f a)) : Ends P Q (x.map f) := by
  rcases x with e | a
  · exact hx
  · exact hf a hx

theorem bind_eq_ok {x : Except ε α} {f : α → Except ε β} {b : β} :
    x.bind f = .ok b ↔ ∃ a, x = .ok a ∧ f a = .ok b := by
  rcases x with e | a <;> simp [Except.bind]

theorem map_eq_ok {x : Except ε α} {f : α → β} {b : β} :
    x.map f = .ok b ↔ ∃ a, x = .ok a ∧ f a = b := by
  rcases x with e | a <;> simp [Except.map]

theorem toOption_eq_some {x : Except ε α} {a : α} :
    x.toOption = some a ↔ x = .ok a := by
  rcases x with e | b <;> simp [Except.toOption]

theorem exists_ok_of_any {x : Except ε α} {p : α → Bool}
    (h : x.toOption.any p = true) : ∃ a, x = .ok a ∧ p a = true := by
  obtain ⟨a, ha, hp⟩ := (Option.any_eq_true _ _).1 h
  exact ⟨a, toOption_eq_some.1 ha, hp⟩

theorem ends_foldlM {f : β → α → Except ε β} : ∀ (as : List α) {b : β},
    (∀ b, ∀ a ∈ as, P b → Ends P Q (f b a)) → P b → Ends P Q (as.foldlM f b)
  | [], _, _, h => h
  | a :: as, b, hf, h => by
    rw [List.foldlM_cons]
    have hstep := hf b a List.mem_cons_self h
    rcases hb : f b a with e | b' <;> rw [hb] at hstep
    · exact hstep
    · exact ends_foldlM as (fun b a ha => hf b a (List.mem_cons_of_mem _ ha)) hstep

/-- A loop comes to its end if each of its steps does, from where the steps before have led. -/
theorem foldlM_ok {f : β → α → Except ε β} : ∀ (as : List α) {b : β},
    (∀ b, ∀ a ∈ as, P b → ∃ b', f b a = .ok b' ∧ P b') → P b →
      ∃ b', as.foldlM f b = .ok b' ∧ P b'
  | [], b, _, h => ⟨b, rfl, h⟩
  | a :: as, b, hf, h => by
    obtain ⟨b₁, hb, h₁⟩ := hf b a List.mem_cons_self h
    rw [List.foldlM_cons, hb]
    exact foldlM_ok as (fun b a ha => hf b a (List.mem_cons_of_mem _ ha)) h₁

/-- What a loop keeps, said of the part of the list that it has come past. -/
theorem foldlM_keeps {f : β → α → Except ε β} {as : List α} {I : List α → β → Prop}
    (hstep : ∀ {pre a post b b'}, as = pre ++ a :: post → I pre b → f b a = .ok b' →
      I (pre ++ [a]) b') {b b' : β} (h : I [] b) (hfold : as.foldlM f b = .ok b') : I as b' := by
  have hrest : ∀ (post pre : List α) {b b' : β}, as = pre ++ post → I pre b →
      post.foldlM f b = .ok b' → I as b' := by
    intro post
    induction post with
    | nil =>
      intro pre b b' has hpre hfold
      rw [List.append_nil] at has
      cases hfold
      rwa [has]
    | cons a post ih =>
      intro pre b b' has hpre hfold
      rw [List.foldlM_cons] at hfold
      rcases hb : f b a with e | b₁
      · rw [hb] at hfold
        cases hfold
      · rw [hb] at hfold
        exact ih (pre ++ [a]) (by simp [has]) (hstep has hpre hb) hfold
  exact hrest as [] rfl h hfold

/-- A loop that stops short does so at one of its steps, and the steps before it have come to their
end. -/
theorem foldlM_eq_error {f : β → α → Except ε β} : ∀ {as : List α} {b : β} {e : ε},
    as.foldlM f b = .error e → ∃ pre a post b', as = pre ++ a :: post
      ∧ pre.foldlM f b = .ok b' ∧ f b' a = .error e
  | [], _, _, h => nomatch h
  | a :: as, b, e, h => by
    rw [List.foldlM_cons] at h
    rcases hb : f b a with e' | b₁ <;> rw [hb] at h
    · cases h
      exact ⟨[], a, as, b, rfl, rfl, hb⟩
    · obtain ⟨pre, a', post, b', has, hpre, herror⟩ := foldlM_eq_error h
      refine ⟨a :: pre, a', post, b', by rw [has, List.cons_append], ?_, herror⟩
      rw [List.foldlM_cons, hb]
      exact hpre

end Ends

section Target

variable {σ α β : Type}

@[simp]
theorem Run.target_record (r : Run σ) (e : Event) : (r.record e).target = r.target := rfl

@[simp]
theorem Run.target_write (r : Run σ) (l : Level) (t : String) :
    (r.write l t).target = r.target := rfl

@[simp]
theorem Run.target_writeFor (r : Run σ) (n : Nat) (l : Level) (t : String) :
    (r.writeFor n l t).target = r.target := rfl

/-- The pass ends in `P`, wherever it ends. -/
def Keeps (P : σ → Prop) : Ending σ α → Prop :=
  Ends (fun e => P e.1.target) fun halt => P halt.target

theorem Keeps.run {P : σ → Prop} {e : Ending σ α} (h : Keeps P e) : P e.run.target := by
  rcases e with halt | ⟨r, a⟩ <;> exact h

theorem Run.check_eq_ok {r : Run σ} {x : Except Fault α} {a : α} :
    r.check x = .ok a ↔ x = .ok a := by
  rcases x with fault | b <;> simp [check]

theorem Run.check_ends {P : σ → Prop} {r : Run σ} (h : P r.target) (x : Except Fault α) :
    Ends (fun a => x = .ok a) (fun halt => P halt.target) (r.check x) := by
  rcases x with fault | a
  · exact h
  · exact rfl

end Target

variable {σ : Type} [Target σ]

open CallSource Target

section Log

/-- The events of `l` stand at the head of those of `l'`. -/
def EventLog.Grows (l l' : EventLog) : Prop := l.events.toList <+: l'.events.toList

theorem EventLog.Grows.refl (l : EventLog) : l.Grows l := List.prefix_rfl

theorem EventLog.Grows.trans {l₁ l₂ l₃ : EventLog} (h₁ : l₁.Grows l₂) (h₂ : l₂.Grows l₃) :
    l₁.Grows l₃ :=
  List.IsPrefix.trans h₁ h₂

theorem EventLog.grows_record (l : EventLog) (e : Event) : l.Grows (l.record e) := by
  unfold Grows record
  rw [Array.toList_push]
  exact List.prefix_append _ _

/-- `l'` is `l` with events of the kind `k` added. -/
def EventLog.Adds (k : EventKind) (l l' : EventLog) : Prop :=
  ∃ es, l'.events.toList = l.events.toList ++ es ∧ ∀ e ∈ es, e.kind = k

namespace EventLog.Adds

variable {k : EventKind} {l l₁ l₂ : EventLog}

theorem refl (k : EventKind) (l : EventLog) : l.Adds k l := ⟨[], by simp, by simp⟩

theorem record (h : l.Adds k l₁) {e : Event} (he : e.kind = k) : l.Adds k (l₁.record e) := by
  obtain ⟨es, heq, hes⟩ := h
  refine ⟨es ++ [e], by simp [EventLog.record, heq], fun e' he' => ?_⟩
  rcases List.mem_append.1 he' with he' | he'
  · exact hes e' he'
  · rw [List.mem_singleton.1 he', he]

theorem trans (h₁ : l.Adds k l₁) (h₂ : l₁.Adds k l₂) : l.Adds k l₂ := by
  obtain ⟨es, heq, hes⟩ := h₁
  obtain ⟨fs, heq', hfs⟩ := h₂
  refine ⟨es ++ fs, by rw [heq', heq, List.append_assoc], fun e he => ?_⟩
  exact (List.mem_append.1 he).elim (hes e) (hfs e)

theorem grows (h : l.Adds k l₁) : l.Grows l₁ := by
  obtain ⟨es, heq, -⟩ := h
  exact ⟨es, heq.symm⟩

/-- The events of other kinds are those of before. -/
theorem ofKind_eq (h : l.Adds k l₁) {k' : EventKind} (hk : k' ≠ k) :
    l₁.ofKind k' = l.ofKind k' := by
  obtain ⟨es, heq, hes⟩ := h
  have hnone : es.filter (·.kind == k') = [] := by
    refine List.filter_eq_nil_iff.2 fun e he hkind => hk ?_
    rw [← hes e he, beq_iff_eq.1 hkind]
  rw [ofKind, heq, List.filter_append, hnone, List.append_nil, ← ofKind]

end EventLog.Adds

theorem Inlining.grows_attempt (phase : Nat) (callee : FunctionId) (s : Inlining σ)
    (call : FunctionId × CallSiteId) : s.log.Grows (s.attempt phase callee call).log := by
  unfold attempt
  simp only []
  split_ifs
  · have hlog : (s.change (inline · call.2)).2.log = s.log := rfl
    split <;> rename_i hs <;> rw [hs] at hlog <;> rw [← hlog] <;> exact EventLog.grows_record _ _
  · exact EventLog.grows_record _ _

theorem Scan.grows_attempt (phase number : Nat) (s : Scan σ) (caller callee : FunctionId)
    (site : CallSiteId) : s.log.Grows (s.attempt phase number caller callee site).log := by
  unfold attempt
  split_ifs
  · exact .refl _
  · have hlog : (s.change (inline · site)).2.log = s.log := rfl
    split <;> rename_i hs <;> rw [hs] at hlog <;> rw [← hlog] <;> exact EventLog.grows_record _ _

theorem Options.adds_diagnose (o : Options) (snapshot : Snapshot) (report : InlineReport)
    (r : Run σ) : r.log.Adds .cycleDetected (o.diagnose snapshot report r).1.log := by
  unfold diagnose
  simp only []
  split_ifs
  · exact .refl _ _
  · exact List.foldlRecOn (motive := fun r' : Run σ => r.log.Adds .cycleDetected r'.log) _ _
      (.refl _ _) fun _ h _ _ => h.record rfl
  · exact (EventLog.Adds.refl _ _).record rfl

theorem Options.grows_diagnose (o : Options) (snapshot : Snapshot) (report : InlineReport)
    (r : Run σ) : r.log.Grows (o.diagnose snapshot report r).1.log :=
  (o.adds_diagnose snapshot report r).grows

theorem Sweep.foldl_release_keeps {σ : Type} : ∀ (fs : List FunctionId) (s : Sweep σ),
    (fs.foldl release s).toRun = s.toRun ∧ (fs.foldl release s).removed = s.removed
  | [], _ => ⟨rfl, rfl⟩
  | f :: fs, s => by
    obtain ⟨hrun, hremoved⟩ := foldl_release_keeps fs (s.release f)
    rw [List.foldl_cons, hrun, hremoved]
    unfold release
    split
    · exact ⟨rfl, rfl⟩
    · split_ifs <;> exact ⟨rfl, rfl⟩

theorem Sweep.adds_remove (phase : Nat) (s : Sweep σ) (f : FunctionId) :
    s.log.Adds .functionRemoved (s.remove phase f).log := by
  have hlog : (s.change (erase · f)).2.log = s.log := rfl
  unfold remove
  simp only []
  split <;> rename_i hs <;> rw [hs] at hlog <;> rw [← hlog]
  · exact .refl _ _
  · rw [(foldl_release_keeps _ _).1]
    exact (EventLog.Adds.refl _ _).record rfl

theorem Sweep.adds_visitFrom (phase : Nat) : ∀ (fuel i : Nat) {s s' : Sweep σ},
    visitFrom phase fuel i s = .ok s' → s.log.Adds .functionRemoved s'.log
  | 0, _, _, _, hs => by
    cases hs
    exact .refl _ _
  | fuel + 1, i, s, s', hs => by
    unfold visitFrom at hs
    split at hs
    · cases hs
      exact .refl _ _
    · rename_i f hf
      rcases hv : s.visit phase f with halt | s₁ <;> rw [hv] at hs
      · cases hs
      · refine .trans ?_ (adds_visitFrom phase fuel (i + 1) hs)
        obtain ⟨b, -, rfl⟩ := map_eq_ok.1 hv
        split_ifs
        · exact adds_remove phase s f
        · exact .refl _ _

theorem Options.adds_sweepPhase (o : Options) {r r' : Run σ} {removed : List RemovedFunction}
    (hs : o.sweepPhase r = .ok (r', removed)) : r.log.Adds .functionRemoved r'.log := by
  unfold sweepPhase at hs
  split_ifs at hs
  · obtain ⟨s, hv, heq⟩ := map_eq_ok.1 hs
    cases heq
    exact Sweep.adds_visitFrom o.phase _ 0 hv
  · cases hs
    exact .refl _ _

theorem Options.grows_sweepPhase (o : Options) {r r' : Run σ} {removed : List RemovedFunction}
    (hs : o.sweepPhase r = .ok (r', removed)) : r.log.Grows r'.log :=
  (o.adds_sweepPhase hs).grows

end Log

/-- A visit of a scan stops short only at a tag that cannot be read, and has done nothing then. -/
theorem Scan.visit_eq_error {phase number : Nat} {s : Scan σ} {e : CallEdge} {halt : Halt σ}
    (h : s.visit phase number e = .error halt) : halt.toRun = s.toRun
      ∧ ∃ c, hasBody s.target c ∧ isMarked phase s.target c = .error halt.fault := by
  unfold visit at h
  split at h
  · cases h
  · rename_i c _
    split_ifs at h with hskip
    simp only [Bool.or_eq_true, not_or, Bool.not_eq_true', Bool.not_eq_false] at hskip
    rcases hm : isMarked phase s.target c with fault | marked <;> rw [hm] at h
    · cases h
      exact ⟨rfl, c, hskip.2, hm⟩
    · cases h

section Inlining

variable {P : σ → Prop} (hP : ∀ t s, P t → P (inline t s).2) {phase : Nat}
include hP

theorem Inlining.attempt_keeps (callee : FunctionId) (s : Inlining σ)
    (call : FunctionId × CallSiteId) (h : P s.target) :
    P (s.attempt phase callee call).target := by
  have hi := hP s.target call.2 h
  unfold attempt
  simp only []
  split_ifs
  · split <;> rename_i hs <;> have ht := congrArg (·.2.target) hs <;> exact ht ▸ hi
  · exact h

theorem Inlining.visit_ends (snapshot : Snapshot) (s : Inlining σ) (callee : FunctionId)
    (h : P s.target) :
    Ends (fun s : Inlining σ => P s.target) (fun halt => P halt.target)
      (s.visit phase snapshot callee) := by
  refine (Run.check_ends h _).map fun marked _ => ?_
  split_ifs
  · exact List.foldlRecOn (motive := fun s : Inlining σ => P s.target) _ _ h
      fun s hs call _ => attempt_keeps hP callee s call hs
  · exact h

/-- Inlining callees first keeps what inlining a call keeps. -/
theorem bottomUp_keeps (snapshot : Snapshot) (r : Run σ) (h : P r.target) :
    Keeps P (bottomUp phase snapshot r) :=
  (ends_foldlM _ (fun s f _ hs => Inlining.visit_ends hP snapshot s f hs) h).map fun _ hs => hs

theorem Scan.attempt_keeps (number : Nat) (s : Scan σ) (caller callee : FunctionId)
    (site : CallSiteId) (h : P s.target) :
    P (s.attempt phase number caller callee site).target := by
  have hi := hP s.target site h
  unfold attempt
  split_ifs
  · exact h
  · split <;> rename_i hs <;> have ht := congrArg (·.2.target) hs <;> exact ht ▸ hi

theorem Scan.visit_ends (number : Nat) (s : Scan σ) (e : CallEdge) (h : P s.target) :
    Ends (fun s : Scan σ => P s.target) (fun halt => P halt.target) (s.visit phase number e) := by
  unfold visit
  split
  · exact h
  · split_ifs
    · exact h
    · refine (Run.check_ends h _).map fun marked _ => ?_
      split_ifs
      · exact attempt_keeps hP number s _ _ _ h
      · exact h

theorem Scan.repeated_keeps (cap : Nat) : ∀ (left : Nat) (s : Scan σ), P s.target →
    Keeps P (s.repeated phase cap left)
  | 0, _, h => h
  | left + 1, s, h => by
    have hs : Ends (fun s : Scan σ => P s.target) (fun halt => P halt.target)
        (s.once phase (cap - left)) := ends_foldlM _ (fun s e _ hs => visit_ends hP _ s e hs) h
    unfold repeated
    split <;> rename_i ho <;> rw [ho] at hs
    · exact hs
    · split_ifs
      · exact repeated_keeps cap left _ hs
      · exact hs

/-- Inlining by scanning again keeps what inlining a call keeps. -/
theorem rescan_keeps (cap : Nat) (r : Run σ) (h : P r.target) : Keeps P (rescan phase cap r) :=
  Scan.repeated_keeps hP cap cap _ h

end Inlining

section Sweeping

variable {P : σ → Prop} (hP : ∀ t f, P t → P (erase t f).2) {phase : Nat}
include hP

theorem Sweep.remove_keeps (s : Sweep σ) (f : FunctionId) (h : P s.target) :
    P (s.remove phase f).target := by
  have he := hP s.target f h
  unfold remove
  simp only []
  split <;> rename_i hs <;> have ht := congrArg (·.2.target) hs
  · exact ht ▸ he
  · rw [(foldl_release_keeps _ _).1]
    exact ht ▸ he

theorem Sweep.visit_ends (s : Sweep σ) (f : FunctionId) (h : P s.target) :
    Ends (fun s : Sweep σ => P s.target) (fun halt => P halt.target) (s.visit phase f) := by
  refine (Run.check_ends h _).map fun removable _ => ?_
  split_ifs
  · exact remove_keeps hP s f h
  · exact h

theorem Sweep.visitFrom_keeps : ∀ (fuel i : Nat) (s : Sweep σ), P s.target →
    Ends (fun s : Sweep σ => P s.target) (fun halt => P halt.target) (visitFrom phase fuel i s)
  | 0, _, _, h => h
  | fuel + 1, i, s, h => by
    unfold visitFrom
    split
    · exact h
    · rename_i f _
      have hv : Ends _ _ (s.visit phase f) := visit_ends hP s f h
      split <;> rename_i hs <;> rw [hs] at hv
      · exact hv
      · exact visitFrom_keeps fuel (i + 1) _ hv

/-- Sweeping keeps what erasing a function keeps, whether or not it was used. -/
theorem sweep_keeps_of_erase (r : Run σ) (h : P r.target) : Keeps P (sweep phase r) :=
  (Sweep.visitFrom_keeps hP _ 0 (Sweep.start r) h).map fun _ hs => hs

end Sweeping

section Lowering

variable (o : Options)

theorem Options.validateFunction_ends (r : Run σ) (f : FunctionId) :
    Ends (fun r' : Run σ => r'.target = r.target) (fun halt => halt.target = r.target)
      (o.validateFunction r f) := by
  refine (Run.check_ends (P := (· = r.target)) rfl _).bind fun marked _ => ?_
  simp only []
  split_ifs
  · rfl
  · rfl
  · rfl

theorem Options.validate_ends (r : Run σ) :
    Ends (fun r' : Run σ => r'.target = r.target) (fun halt => halt.target = r.target)
      (o.validate r) :=
  ends_foldlM _ (fun r' f _ h => (o.validateFunction_ends r' f).imp (fun _ h' => h'.trans h)
    fun _ h' => h'.trans h) rfl

theorem Options.target_validate {r r' : Run σ} (h : o.validate r = .ok r') :
    r'.target = r.target := by
  have hends := o.validate_ends r
  rwa [h] at hends

/-- A function's tag can be read, and it is not a protected function of the phase that stops the
run. -/
def Options.Accepts (t : σ) (f : FunctionId) : Prop :=
  ∃ marked, isMarked o.phase t f = .ok marked ∧ (marked && isProtected t f && o.strict) = false

theorem Options.validateFunction_ok {r : Run σ} {f : FunctionId} :
    (∃ r', o.validateFunction r f = .ok r') ↔ o.Accepts r.target f := by
  unfold validateFunction Accepts
  rcases isMarked o.phase r.target f with fault | marked
  · simp [Run.check, Except.bind]
  · rcases marked <;> rcases isProtected r.target f <;> rcases o.strict <;>
      simp [Run.check, Except.bind]

theorem Options.foldlM_validateFunction_ok : ∀ (fs : List FunctionId) (r : Run σ),
    (∃ r', fs.foldlM o.validateFunction r = .ok r') ↔ ∀ f ∈ fs, o.Accepts r.target f
  | [], r => ⟨fun _ _ hf => (nomatch hf), fun _ => ⟨r, rfl⟩⟩
  | f :: fs, r => by
    rw [List.foldlM_cons, List.forall_mem_cons, ← o.validateFunction_ok]
    have ht := o.validateFunction_ends r f
    rcases hv : o.validateFunction r f with halt | r₁
    · simp [bind, Except.bind]
    · rw [hv] at ht
      have hrest := foldlM_validateFunction_ok fs r₁
      rw [show r₁.target = r.target from ht] at hrest
      simpa [bind, Except.bind] using hrest

/-- The functions of a target are checked one by one. -/
theorem Options.validate_ok {r : Run σ} : (∃ r', o.validate r = .ok r') ↔
    ∀ f ∈ functionIds r.target, o.Accepts r.target f :=
  o.foldlM_validateFunction_ok _ r

@[simp]
theorem Options.target_diagnose (snapshot : Snapshot) (report : InlineReport) (r : Run σ) :
    (o.diagnose snapshot report r).1.target = r.target := by
  unfold diagnose
  simp only []
  split_ifs
  · rfl
  · exact List.foldlRecOn (motive := fun r' : Run σ => r'.target = r.target) _ _ rfl
      fun _ h _ _ => h
  · rfl

theorem lower_eq (r : Run σ) : lower o r = (o.validate { r with log := {} }).bind fun r =>
    (o.inlinePhase (o.begin r).2 (o.begin r).1).bind fun e =>
      (o.sweepPhase (o.diagnose (o.begin r).2 e.2 e.1).1).map fun e' =>
        o.complete e.2 (o.diagnose (o.begin r).2 e.2 e.1).2 e'.2 e'.1 := rfl

/-- A run ends well exactly if each of its parts does. -/
theorem lower_ok {r r' : Run σ} {out : Outcome} :
    lower o r = .ok (r', out) ↔ ∃ r₀ r₁ report r₂ removed,
      let snapshot := Snapshot.ofSource r₀.target
      o.validate { r with log := {} } = .ok r₀
        ∧ o.inlinePhase snapshot (o.begin r₀).1 = .ok (r₁, report)
        ∧ o.sweepPhase (o.diagnose snapshot report r₁).1 = .ok (r₂, removed)
        ∧ o.complete report (o.diagnose snapshot report r₁).2 removed r₂ = (r', out) := by
  rw [lower_eq]
  simp only [bind_eq_ok, map_eq_ok, Prod.exists]
  constructor
  · rintro ⟨r₀, hv, r₁, report, hi, r₂, removed, hs, hc⟩
    exact ⟨r₀, r₁, report, r₂, removed, hv, hi, hs, hc⟩
  · rintro ⟨r₀, r₁, report, r₂, removed, hv, hi, hs, hc⟩
    exact ⟨r₀, hv, r₁, report, hi, r₂, removed, hs, hc⟩

/-- If functions are visited callees first, the second part is the visits. -/
theorem lower_bottomUp_ok (ho : o.strategy = .bottomUp) {r r' : Run σ} {out : Outcome} :
    lower o r = .ok (r', out) ↔ ∃ r₀ s r₁ removed,
      let snapshot := Snapshot.ofSource r₀.target
      let report := Inlining.report s snapshot.drain
      o.validate { r with log := {} } = .ok r₀
        ∧ snapshot.drain.ready.toList.foldlM (Inlining.visit o.phase snapshot)
          { (o.begin r₀).1 with } = .ok s
        ∧ o.sweepPhase (o.diagnose snapshot report s.toRun).1 = .ok (r₁, removed)
        ∧ o.complete report (o.diagnose snapshot report s.toRun).2 removed r₁ = (r', out) := by
  rw [lower_ok]
  simp only [Options.inlinePhase, ho, bottomUp, map_eq_ok]
  constructor
  · rintro ⟨r₀, r₁, report, r₂, removed, hv, ⟨s, hfold, hr⟩, hs, hc⟩
    cases hr
    exact ⟨r₀, s, r₂, removed, hv, hfold, hs, hc⟩
  · rintro ⟨r₀, s, r₂, removed, hv, hfold, hs, hc⟩
    exact ⟨r₀, s.toRun, _, r₂, removed, hv, ⟨s, hfold, rfl⟩, hs, hc⟩

theorem lowerNext_ok {e e' : Run σ × Outcomes} {phase : Nat} (h : lowerNext o e phase = .ok e') :
    ∃ r out, lower { o with phase } e.1 = .ok (r, out) ∧ e'.1.target = r.target
      ∧ e'.2.outcomes = e.2.outcomes ++ [out] := by
  obtain ⟨⟨r, out⟩, hlower, rfl⟩ := map_eq_ok.1 h
  exact ⟨r, out, hlower, rfl, rfl⟩

variable {P : σ → Prop}

theorem Options.sweepPhase_keeps (hsweep : ∀ r : Run σ, P r.target → Keeps P (sweep o.phase r))
    (r : Run σ) (h : P r.target) : Keeps P (o.sweepPhase r) := by
  unfold sweepPhase
  split_ifs
  · exact hsweep r h
  · exact h

variable (hinline : ∀ t s, P t → P (inline t s).2)
include hinline

theorem Options.inlinePhase_keeps (snapshot : Snapshot) (r : Run σ) (h : P r.target) :
    Keeps P (o.inlinePhase snapshot r) := by
  unfold inlinePhase
  split
  · exact bottomUp_keeps hinline snapshot r h
  · exact rescan_keeps hinline _ r h

/-- Lowering a phase keeps what inlining a call and sweeping the phase keep. -/
theorem lower_keeps (hsweep : ∀ r : Run σ, P r.target → Keeps P (sweep o.phase r)) (r : Run σ)
    (h : P r.target) : Keeps P (lower o r) := by
  rw [lower_eq]
  have hv : Ends (fun r' : Run σ => P r'.target) (fun halt => P halt.target)
      (o.validate { r with log := {} }) :=
    (o.validate_ends _).imp (fun _ ht => ht.symm ▸ h) fun _ ht => ht.symm ▸ h
  refine hv.bind fun r' hr' => ?_
  refine (o.inlinePhase_keeps hinline _ (o.begin r').1 hr').bind fun e he => ?_
  have hd : P (o.diagnose (o.begin r').2 e.2 e.1).1.target := by rwa [o.target_diagnose]
  exact (o.sweepPhase_keeps hsweep _ hd).map fun _ hs => hs

theorem lowerAll_keeps (phases : List Nat)
    (hsweep : ∀ phase ∈ phases, ∀ r : Run σ, P r.target → Keeps P (sweep phase r)) (r : Run σ)
    (h : P r.target) : Keeps P (lowerAll o phases r) := by
  refine ends_foldlM (P := fun e : Run σ × Outcomes => P e.1.target) _ (fun e phase hp he => ?_) h
  exact (lower_keeps { o with phase } hinline (hsweep phase hp) e.1 he).map fun _ hr => hr

end Lowering

end PhasedInlining
