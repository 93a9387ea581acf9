import PhasedInlining.Proofs.History

/-!
# The lifetime of handles

A module issues its handles in order and none twice. So a handle leads to one call for as long as it
leads anywhere, and a function that is gone does not come back, whatever is done to the module and
whatever names and labels are used for it (`Ages`). This needs no invariant. It holds of each of the
four edits that all others are made of (`Step`), since each changes the body of one function and
only adds instructions under handles that are new, and it carries over to every row of them.
-/

namespace PhasedInlining

open CallSource Relation Target

namespace Body

variable {α : Type}

/-- The target of the first call labelled `s`. -/
def target? (s : CallSiteId) (is : Body) : Option CallTarget :=
  is.findSome? fun
    | .call t target => if t = s then some target else none
    | _ => none

variable {s : CallSiteId}

@[simp]
theorem target?_nil : target? s [] = none := rfl

@[simp]
theorem target?_append (is js : Body) :
    target? s (is ++ js) = (target? s is).or (target? s js) :=
  List.findSome?_append

theorem target?_call_of_ne {x : CallSiteId} (hx : x ≠ s) (t : CallTarget) (is : Body) :
    target? s (.call x t :: is) = target? s is := by
  simp [target?, hx]

/-- Fresh handles are none of the old ones. -/
theorem target?_issue {next : Nat} (hs : s.value < next) (is : List (Instr α)) :
    target? s (issue next is) = none := by
  rw [target?, List.findSome?_eq_none_iff]
  intro i hi
  rcases i with _ | ⟨x, t⟩ | _ | _
  · rfl
  · have hx : x ∈ sites (issue next is) := mem_sites.2 ⟨t, hi⟩
    rw [sites_issue, mem_range'_map] at hx
    have hne : x ≠ s := by
      rintro rfl
      omega
    simp [hne]
  · rfl
  · rfl

end Body

namespace Module

variable {m m' : Module} {s : CallSiteId}

section Ages

/-- `m'` is a later state of `m`: what had been issued leads where it led, or nowhere. -/
structure Ages (m m' : Module) : Prop where
  nextSite_le : m.nextSite ≤ m'.nextSite
  size_le : m.slots.size ≤ m'.slots.size
  callAt?_eq : ∀ {s}, s.value < m.nextSite → m'.callAt? s = none ∨ m'.callAt? s = m.callAt? s
  not_contains : ∀ {f}, f.index < m.slots.size → m.contains f = false → m'.contains f = false

theorem callAt?_eq_bind (m : Module) (s : CallSiteId) :
    m.callAt? s = m.owners[s]?.bind fun f => (Body.target? s (m.instrsOf f)).map (f, ·) := by
  unfold callAt? Body.target?
  simp only [Option.bind_eq_bind, List.map_findSome?]
  congr 1
  funext f
  congr 1
  funext i
  rcases i with _ | ⟨x, t⟩ | _ | _ <;> simp [apply_ite]

namespace Ages

theorem refl (m : Module) : m.Ages m := ⟨le_rfl, le_rfl, fun _ => .inr rfl, fun _ h => h⟩

theorem trans {m₁ : Module} (h : m.Ages m₁) (h₁ : m₁.Ages m') : m.Ages m' := by
  refine ⟨h.nextSite_le.trans h₁.nextSite_le, h.size_le.trans h₁.size_le, fun {s} hs => ?_,
    fun {f} hf hno => ?_⟩
  · rcases h₁.callAt?_eq (s := s) (hs.trans_le h.nextSite_le) with hnone | heq
    · exact .inl hnone
    · rw [heq]
      exact h.callAt?_eq hs
  · exact h₁.not_contains (hf.trans_le h.size_le) (h.not_contains hf hno)

/-- One function is changed. Of the old handles its table may only lose some, and those that are
left lead in the function's body where they led. -/
theorem change (f : FunctionId) (hnext : m.nextSite ≤ m'.nextSite)
    (hsize : m.slots.size ≤ m'.slots.size)
    (hlive : ∀ g, g.index < m.slots.size → m'.contains g → m.contains g)
    (hother : ∀ g, g ≠ f → m'.instrsOf g = m.instrsOf g)
    (hown : ∀ s : CallSiteId, s.value < m.nextSite →
      m'.owners[s]? = none ∨ m'.owners[s]? = m.owners[s]?)
    (hbody : ∀ s : CallSiteId, s.value < m.nextSite → m'.owners[s]? = some f →
      Body.target? s (m'.instrsOf f) = none
        ∨ Body.target? s (m'.instrsOf f) = Body.target? s (m.instrsOf f)) : m.Ages m' := by
  refine ⟨hnext, hsize, fun {s} hs => ?_, fun {g} hg hno => ?_⟩
  · rw [callAt?_eq_bind, callAt?_eq_bind]
    rcases hown s hs with ho | ho
    · simp [ho]
    rw [← ho]
    rcases ho' : m'.owners[s]? with _ | g
    · simp
    · by_cases hg : g = f
      · subst hg
        rcases hbody s hs ho' with hb | hb <;> simp [hb]
      · simp [hother g hg]
  · rw [Bool.eq_false_iff] at hno ⊢
    exact fun hg' => hno (hlive g hg hg')

theorem push (m : Module) (f : Function) : m.Ages (m.push f).2 := by
  refine change ⟨m.slots.size⟩ (Nat.le_add_right _ _) ?_ (fun g hg hg' => ?_) (fun g hg => ?_)
    (fun s hs => .inr ?_) (fun s hs _ => .inl ?_)
  · simp [Module.push, issueSites]
  · have hne : g ≠ ⟨m.slots.size⟩ := by
      rintro rfl
      exact Nat.lt_irrefl _ hg
    rwa [contains, function?_push, if_neg hne] at hg'
  · rw [instrsOf_push, if_neg hg]
  · have ho : (m.push f).2.owners[s]?
        = (m.issueSites ⟨m.slots.size⟩ (Body.callCount f.instrs)).owners[s]? := rfl
    rw [ho, owners_issueSites, if_neg (by omega)]
  · rw [instrsOf_push, if_pos rfl, Body.target?_issue hs]

theorem add (m : Module) (f : Function) : m.Ages (m.add f).2 := by
  rcases m.add_cases f with h | ⟨-, h⟩ <;> rw [h]
  · exact refl m
  · exact push m f

theorem append {α : Type} (m : Module) (f : FunctionId) (is : List (Instr α)) :
    m.Ages (m.append f is).2 := by
  rcases m.append_cases f is with h | ⟨hf, new, h⟩ <;> rw [h]
  · exact refl m
  have hf' : (m.issueSites f (Body.callCount new)).contains f := hf
  refine change f (Nat.le_add_right _ _) ?_ (fun g _ hg' => ?_) (fun g hg => ?_)
    (fun s hs => .inr ?_) (fun s hs _ => .inr ?_)
  · simp [setBody, issueSites]
  · by_cases hg : g = f
    · rwa [hg]
    · rwa [contains, function?_setBody, if_neg hg] at hg'
  · rw [instrsOf_setBody hf', if_neg hg]
    rfl
  · have ho := owners_issueSites (m := m) f (Body.callCount new) s
    rwa [if_neg (by omega)] at ho
  · rw [instrsOf_setBody hf', if_pos rfl, Body.target?_append, Body.target?_issue hs,
      Option.or_none]

theorem remove (m : Module) (f : FunctionId) : m.Ages (m.remove f).2 := by
  have hsize : (m.remove f).2.slots.size = m.slots.size := by
    unfold Module.remove
    split <;> simp
  refine change f (nextSite_remove f).ge hsize.ge (fun g _ hg' => ?_) (fun g hg => ?_)
    (fun s hs => ?_) (fun s hs _ => .inl ?_)
  · rw [contains_remove, Bool.and_eq_true] at hg'
    exact hg'.1
  · rw [instrsOf_remove, if_neg hg]
  · unfold Module.remove
    split
    · exact .inr rfl
    · simp only [WellFormed.owners_foldl_erase]
      split_ifs
      · exact .inl rfl
      · exact .inr rfl
  · rw [instrsOf_remove, if_pos rfl, Body.target?_nil]

theorem splice (m : Module) (s : CallSiteId) : m.Ages (m.splice s).2 := by
  rcases m.splice_cases s with ⟨r, -, h⟩ | ⟨caller, callee, g, hok, -, -, h⟩
  · rw [h]
    exact refl m
  refine change caller (by rw [h.nextSite]; omega) ?_ (fun k _ hk' => ?_)
    (fun k hk => h.instrsOf_other hk) (fun x hx => ?_) (fun x hx ho => .inr ?_)
  · simp [Module.splice, hok, spliceBody, setBody, issueSites]
  · rwa [contains_of_header? (h.header?_eq k)] at hk'
  · rw [owners_splice hok]
    split_ifs
    · exact .inl rfl
    · omega
    · exact .inr rfl
  · have hne : x ≠ s := by
      rintro rfl
      simp [owners_splice hok] at ho
    obtain ⟨pre, post, hbody, -, hbody'⟩ := h.body
    rw [hbody, hbody']
    simp [Body.target?_issue hx, Body.target?_call_of_ne hne.symm]

end Ages

end Ages

section Steps

/-- The edits that all others are made of. -/
inductive Step : Module → Module → Prop
  | add (m : Module) (f : Function) : Step m (m.add f).2
  | append {α : Type} (m : Module) (f : FunctionId) (is : List (Instr α)) :
    Step m (m.append f is).2
  | remove (m : Module) (f : FunctionId) : Step m (m.remove f).2
  | splice (m : Module) (s : CallSiteId) : Step m (m.splice s).2

theorem Lowers.steps (h : Lowers m m') : ReflTransGen Step m m' := by
  have hinline : ∀ t s, ReflTransGen Step m t → ReflTransGen Step m (inline t s).2 :=
    fun t s ht => t.target_inline s ▸ ht.tail (.splice t s)
  have herase : ∀ t f, ReflTransGen Step m t → ReflTransGen Step m (erase t f).2 :=
    fun t f ht => ht.tail (.remove t f)
  have hsweep : ∀ phase, ∀ r : Run Module, ReflTransGen Step m r.target →
      Keeps (ReflTransGen Step m) (PhasedInlining.sweep phase r) :=
    fun _ r hr => sweep_keeps_of_erase herase r hr
  cases h with
  | splice _ s => exact .single (.splice m s)
  | bottomUp phase snapshot r => exact (bottomUp_keeps hinline snapshot r .refl).run
  | rescan phase cap r => exact (rescan_keeps hinline cap r .refl).run
  | sweep phase r => exact (hsweep phase r .refl).run
  | lower o r => exact (lower_keeps o hinline (hsweep o.phase) r .refl).run
  | lowerAll o phases r =>
    exact (lowerAll_keeps o hinline phases (fun phase _ => hsweep phase) r .refl).run

theorem Edits.steps (h : Edits m m') : ReflTransGen Step m m' := by
  cases h with
  | add _ f => exact .single (.add m f)
  | append _ f is => exact .single (.append m f is)
  | remove _ f => exact .single (.remove m f)
  | lowers hl => exact hl.steps

theorem Step.ages (h : Step m m') : m.Ages m' := by
  cases h with
  | add _ f => exact .add m f
  | append _ f is => exact .append m f is
  | remove _ f => exact .remove m f
  | splice _ s => exact .splice m s

theorem ages_of_steps (h : ReflTransGen Step m m') : m.Ages m' := by
  induction h with
  | refl => exact .refl m
  | tail _ hs ih => exact ih.trans hs.ages

theorem WellFormed.step (hwf : m.WellFormed) (h : Step m m') : m'.WellFormed := by
  cases h with
  | add _ f => exact hwf.add f
  | append _ f is => exact hwf.append f is
  | remove _ f => exact hwf.remove f
  | splice _ s => exact hwf.splice s

theorem WellFormed.steps (hwf : m.WellFormed) (h : ReflTransGen Step m m') : m'.WellFormed := by
  induction h with
  | refl => exact hwf
  | tail _ hs ih => exact ih.step hs

theorem WellFormed.exists_call (hwf : m.WellFormed) {f : FunctionId}
    (ho : m.owners[s]? = some f) : ∃ t, m.callAt? s = some (f, t) := by
  obtain ⟨t, ht⟩ := Body.mem_sites.1 ((hwf.owner_iff s f).1 ho)
  exact ⟨t, hwf.callAt?_iff.2 ht⟩

/-- A handle is issued to a call, which it then leads to. -/
theorem Step.exists_call (h : Step m m') (hwf : m.WellFormed) (hs : m.nextSite ≤ s.value)
    (hs' : s.value < m'.nextSite) : ∃ f t, m'.callAt? s = some (f, t) := by
  suffices ∃ f, m'.owners[s]? = some f by
    obtain ⟨f, hf⟩ := this
    exact ⟨f, (hwf.step h).exists_call hf⟩
  cases h with
  | add _ f =>
    rcases m.add_cases f with ha | ⟨-, ha⟩ <;> rw [ha] at hs' ⊢
    · omega
    · have ho := owners_issueSites (m := m) ⟨m.slots.size⟩ (Body.callCount f.instrs) s
      rw [if_pos ⟨hs, hs'⟩] at ho
      exact ⟨_, ho⟩
  | append _ f is =>
    rcases m.append_cases f is with ha | ⟨-, new, ha⟩ <;> rw [ha] at hs' ⊢
    · omega
    · have ho := owners_issueSites (m := m) f (Body.callCount new) s
      rw [if_pos ⟨hs, hs'⟩] at ho
      exact ⟨f, ho⟩
  | remove _ f =>
    rw [nextSite_remove] at hs'
    omega
  | splice _ x =>
    rcases m.splice_cases x with ⟨r, -, ha⟩ | ⟨caller, callee, g, hok, -, -, ha⟩
    · simp only [ha] at hs'
      omega
    · rw [ha.nextSite] at hs'
      have hx : s ≠ x := by
        rintro rfl
        obtain ⟨pre, post, hbody, -, -⟩ := ha.body
        have hlt := hwf.site_lt caller s (by simp [sitesIn, hbody])
        omega
      exact ⟨caller, by rw [owners_splice hok, if_neg hx, if_pos ⟨hs, hs'⟩]⟩

/-- On the way from `m` to `m'` it is the step from `m₁` to `m₂` that issues `s`. -/
structure IssuedAt (s : CallSiteId) (m m₁ m₂ m' : Module) : Prop where
  before : ReflTransGen Step m m₁
  step : Step m₁ m₂
  after : ReflTransGen Step m₂ m'
  fresh : m₁.nextSite ≤ s.value
  issued : s.value < m₂.nextSite

theorem exists_issuedAt (h : ReflTransGen Step m m') (hs : m.nextSite ≤ s.value)
    (hs' : s.value < m'.nextSite) : ∃ m₁ m₂, IssuedAt s m m₁ m₂ m' := by
  induction h with
  | refl => omega
  | @tail m₁ m₂ hbefore hstep ih =>
    by_cases hm₁ : s.value < m₁.nextSite
    · obtain ⟨k₁, k₂, hk⟩ := ih hm₁
      exact ⟨k₁, k₂, { hk with after := hk.after.tail hstep }⟩
    · exact ⟨m₁, m₂, hbefore, hstep, .refl, by omega, hs'⟩

end Steps

/-- Whatever is done to a module, a handle that was issued leads where it led when it was issued, or
it leads nowhere and never will again, and no function comes back. A handle issued on the way, be it
in the middle of a lowering, is no exception. -/
theorem handles_never_revived (h : ReflTransGen Edits m m') :
    m.Ages m' ∧ ∀ s : CallSiteId, m.nextSite ≤ s.value → s.value < m'.nextSite →
      ∃ m₁ m₂, IssuedAt s m m₁ m₂ m' ∧ m₂.Ages m'
        ∧ (m.WellFormed → ∃ f t, m₂.callAt? s = some (f, t)) := by
  have hsteps : ReflTransGen Step m m' := by
    induction h with
    | refl => exact .refl
    | tail _ he ih => exact ih.trans he.steps
  refine ⟨ages_of_steps hsteps, fun s hs hs' => ?_⟩
  obtain ⟨m₁, m₂, hissued⟩ := exists_issuedAt hsteps hs hs'
  refine ⟨m₁, m₂, hissued, ages_of_steps hissued.after, fun hwf => ?_⟩
  exact hissued.step.exists_call (hwf.steps hissued.before) hissued.fresh hissued.issued

/-- The function in the middle is inlined and removed, and another is added under its name, with a
call labelled by a handle of the old one. -/
theorem handles_never_revived_sample :
    let m := (lower { phase := 1 } { target := sample }).run.target
    let m' := (m.add { name := "middle", body := some [.call ⟨1⟩ (.direct ⟨0⟩)] }).2
    sample.contains ⟨1⟩ ∧ m'.contains ⟨1⟩ = false ∧ (m'.functionNamed? "middle").isSome
      ∧ sample.callAt? ⟨1⟩ = some (⟨1⟩, .indirect) ∧ m'.callAt? ⟨1⟩ = none
      ∧ m'.callAt? ⟨4⟩ = sample.callAt? ⟨4⟩
      ∧ ∃ m₁ m₂ f t, IssuedAt ⟨5⟩ sample m₁ m₂ m' ∧ m₂.callAt? ⟨5⟩ = some (f, t) := by
  intro m m'
  have hrun : ReflTransGen Edits sample m :=
    .single (.lowers (.lower { phase := 1 } { target := sample }))
  have hadd : ReflTransGen Edits m m' := .single (.add _ _)
  obtain ⟨hages, -⟩ := handles_never_revived hadd
  obtain ⟨hages₀, hissued⟩ := handles_never_revived (hrun.trans hadd)
  have hfour : m'.callAt? ⟨4⟩ ≠ none := by decide +kernel
  obtain ⟨m₁, m₂, hat, -, hcall⟩ := hissued ⟨5⟩ (by decide +kernel) (by decide +kernel)
  obtain ⟨f, t, hcall⟩ := hcall sample_wellFormed
  refine ⟨by decide +kernel, hages.not_contains (by decide +kernel) (by decide +kernel),
    by decide +kernel, by decide +kernel, ?_,
    (hages₀.callAt?_eq (by decide +kernel)).resolve_left hfour, m₁, m₂, f, t, hat, hcall⟩
  rcases hages.callAt?_eq (s := ⟨1⟩) (by decide +kernel) with hnone | heq
  · exact hnone
  · rw [heq]
    decide +kernel

end Module

end PhasedInlining
