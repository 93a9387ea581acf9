import PhasedInlining.Proofs.Lowering.Frame

/-!
# What stops a run

Besides checking the functions before it starts, a run stops only where it cannot read a tag or
where scanning does not come to an end (`lower_halts`). The checks have read every tag, and lowering
changes none, so after them a tag cannot stop a run. Hence a run that stops at a function has found
it with the checks, the first there is in the order of the module, and has changed nothing
(`lower_stops`). In a row of phases only the first can find a tag that it cannot read.
-/

namespace PhasedInlining

open CallSource Target

section Halt

variable {σ : Type} [Target σ] {phase : Nat} {t : σ} {f : FunctionId} {fault : Fault}

/-- The run stopped at a tag that names no phase. -/
def Halt.Unreadable (halt : Halt σ) : Prop := ∃ f, phaseOf halt.target f = .error halt.fault

theorem isMarked_eq_error :
    isMarked phase t f = .error fault ↔ phaseOf t f = .error fault := by
  unfold isMarked
  rcases phaseOf t f with e | p <;> simp [Except.map]

theorem isRemovable_eq_error :
    isRemovable phase t f = .error fault ↔ phaseOf t f = .error fault := by
  unfold isRemovable isMarked
  rcases phaseOf t f with e | p <;> simp [Except.map]

theorem Run.check_halts {α : Type} {r : Run σ} {x : Except Fault α}
    (hx : ∀ fault, x = .error fault → phaseOf r.target f = .error fault) :
    Ends (fun _ => True) Halt.Unreadable (r.check x) := by
  rcases x with fault | a
  · exact ⟨f, hx fault rfl⟩
  · trivial

theorem bottomUp_halts (snapshot : Snapshot) (r : Run σ) :
    Ends (fun _ => True) Halt.Unreadable (bottomUp phase snapshot r) := by
  have hvisits : ∀ (s : Inlining σ) (f : FunctionId),
      Ends (fun _ => True) Halt.Unreadable (s.visit phase snapshot f) := fun s f =>
    (Run.check_halts fun _ => isMarked_eq_error.1).map fun _ _ => trivial
  exact (ends_foldlM _ (fun s f _ _ => hvisits s f) trivial).map fun _ _ => trivial

theorem Scan.visit_halts (number : Nat) (s : Scan σ) (e : CallEdge) :
    Ends (fun _ => True) Halt.Unreadable (s.visit phase number e) := by
  rcases h : s.visit phase number e with halt | s'
  · obtain ⟨hrun, c, -, hmarked⟩ := visit_eq_error h
    rw [← hrun] at hmarked
    exact ⟨c, isMarked_eq_error.1 hmarked⟩
  · trivial

theorem Scan.repeated_halts (cap : Nat) : ∀ (left : Nat) (s : Scan σ),
    Ends (fun _ => True) (fun halt => halt.Unreadable ∨ halt.fault = .notConverged phase cap)
      (s.repeated phase cap left)
  | 0, _ => .inr rfl
  | left + 1, s => by
    have hs : Ends (fun _ => True) Halt.Unreadable (s.once phase (cap - left)) :=
      ends_foldlM _ (fun s e _ _ => visit_halts _ s e) trivial
    unfold repeated
    split <;> rename_i ho <;> rw [ho] at hs
    · exact .inl hs
    · split_ifs
      · exact repeated_halts cap left _
      · trivial

theorem Sweep.visitFrom_halts : ∀ (fuel i : Nat) (s : Sweep σ),
    Ends (fun _ => True) Halt.Unreadable (visitFrom phase fuel i s)
  | 0, _, _ => trivial
  | fuel + 1, i, s => by
    unfold visitFrom
    split
    · trivial
    · rename_i f _
      have hv : Ends (fun _ => True) Halt.Unreadable (s.visit phase f) :=
        (Run.check_halts fun _ => isRemovable_eq_error.1).map fun _ _ => trivial
      split <;> rename_i hs <;> rw [hs] at hv
      · exact hv
      · exact visitFrom_halts fuel (i + 1) _

/-- What stops a run once its checks are through. -/
theorem lower_halts {o : Options} {r r₀ : Run σ} (h : o.validate { r with log := {} } = .ok r₀) :
    Ends (fun _ => True) (fun halt => halt.Unreadable
      ∨ ∃ cap, o.strategy = .rescan cap ∧ halt.fault = .notConverged o.phase cap) (lower o r) := by
  rw [lower_eq]
  refine Ends.bind (R := fun _ => True) (by rw [h]; trivial) fun r _ => ?_
  refine Ends.bind (R := fun _ => True) ?_ fun e _ => ?_
  · unfold Options.inlinePhase
    split <;> rename_i hstrategy
    · exact (bottomUp_halts _ _).imp (fun _ _ => trivial) fun _ hhalt => .inl hhalt
    · refine (Scan.repeated_halts _ _ _).imp (fun _ _ => trivial) fun _ hhalt => ?_
      exact hhalt.imp id fun hfault => ⟨_, hstrategy, hfault⟩
  · refine Ends.map (R := fun _ => True) ?_ fun _ _ => trivial
    unfold Options.sweepPhase
    split_ifs
    · refine Ends.map (R := fun _ => True) ?_ fun _ _ => trivial
      exact (Sweep.visitFrom_halts _ _ _).imp (fun _ _ => trivial) fun _ hhalt => .inl hhalt
    · trivial

end Halt

namespace Options

variable (o : Options) {r : Run Module} {g : Function}

/-- Why a run does not start on a module with this function. -/
def objection? (g : Function) : Option Fault :=
  match g.phaseTag? with
  | none => none
  | some tag =>
    match Phase.parse tag with
    | .error _ => some (.malformed (.functionTag g.id tag))
    | .ok phase =>
      if phase = o.phase ∧ g.isProtected ∧ o.strict then
        some (.invariantViolation (.protectedMarked g.id g.name o.phase))
      else none

theorem objection?_eq {m : Module} (hg : m.function? g.id = some g) :
    o.objection? g = match phaseOf m g.id with
      | .error fault => some fault
      | .ok p =>
        if p = some o.phase ∧ g.isProtected ∧ o.strict then
          some (.invariantViolation (.protectedMarked g.id g.name o.phase))
        else none := by
  have htag : phaseTag? m g.id = g.phaseTag? := by simp [phaseTag?, hg]
  unfold objection? phaseOf
  rw [htag]
  rcases g.phaseTag? with _ | tag
  · simp
  · rcases hp : Phase.parse tag with cause | phase <;> simp [hp]

theorem validateFunction_stops (hg : r.target.function? g.id = some g) :
    Ends (fun r' => r'.target = r.target ∧ o.objection? g = none)
      (fun halt => halt.target = r.target ∧ o.objection? g = some halt.fault)
      (o.validateFunction r g.id) := by
  have hprotected : isProtected r.target g.id = g.isProtected := by simp [isProtected, hg]
  have hname : displayName r.target g.id = g.name := by simp [displayName, CallSource.name?, hg]
  rw [o.objection?_eq hg]
  unfold validateFunction isMarked
  rw [hprotected, hname]
  rcases phaseOf r.target g.id with fault | p
  · exact ⟨rfl, rfl⟩
  · by_cases hp : p = some o.phase <;> rcases g.isProtected <;> rcases o.strict <;>
      simp [Run.check, Except.map, Except.bind, Ends, hp]

theorem foldlM_validateFunction_stops : ∀ (gs : List Function) {r : Run Module},
    (∀ g ∈ gs, r.target.function? g.id = some g) →
      Ends (fun r' => r'.target = r.target ∧ gs.findSome? o.objection? = none)
        (fun halt => halt.target = r.target ∧ gs.findSome? o.objection? = some halt.fault)
        ((gs.map (·.id)).foldlM o.validateFunction r)
  | [], _, _ => ⟨rfl, rfl⟩
  | g :: gs, r, hgs => by
    have hstep := o.validateFunction_stops (hgs g List.mem_cons_self)
    rw [List.map_cons, List.foldlM_cons, List.findSome?_cons]
    rcases hv : o.validateFunction r g.id with halt | r₁ <;> rw [hv] at hstep
    · rw [hstep.2]
      exact ⟨hstep.1, rfl⟩
    · obtain ⟨htarget, hnone⟩ := hstep
      have hrest := foldlM_validateFunction_stops gs (r := r₁) fun k hk =>
        htarget ▸ hgs k (List.mem_cons_of_mem _ hk)
      rw [hnone]
      rwa [htarget] at hrest

/-- The checks find the first function that they object to, in the order of the module. -/
theorem validate_stops (hwf : r.target.WellFormed) :
    Ends (fun r' => r'.target = r.target ∧ r.target.functions.findSome? o.objection? = none)
      (fun halt => halt.target = r.target
        ∧ r.target.functions.findSome? o.objection? = some halt.fault) (o.validate r) :=
  o.foldlM_validateFunction_stops _ fun _ hg => hwf.mem_functions.1 hg

end Options

namespace Module

variable {m m' : Module} {f : FunctionId}

/-- Every tag names a phase. -/
def Legible (m : Module) : Prop := ∀ f, ∃ p, phaseOf m f = .ok p

theorem phaseOf_of_not_contains (h : m.contains f = false) : phaseOf m f = .ok none := by
  have hnone : m.function? f = none := by simpa [contains] using h
  simp [phaseOf, phaseTag?, hnone]

theorem Legible.frames {phases : List Nat} (h : m.Legible) (hframe : m.Frames phases m') :
    m'.Legible := by
  intro f
  rcases hf : m'.contains f with _ | _
  · exact ⟨none, phaseOf_of_not_contains hf⟩
  · rw [phaseOf_of_header? (hframe.header?_eq hf)]
    exact h f

theorem Legible.not_unreadable {phases : List Nat} {halt : Halt Module} (h : m.Legible)
    (hframe : m.Frames phases halt.target) : ¬ halt.Unreadable := by
  rintro ⟨f, hf⟩
  obtain ⟨p, hp⟩ := h.frames hframe f
  exact nomatch hf.symm.trans hp

/-- What is left of a module gives no new cause for an objection. -/
theorem Frames.no_objection {phases : List Nat} {o : Options} (h : m.Frames phases m')
    (hwf : m.WellFormed) (hwf' : m'.WellFormed)
    (hnone : m.functions.findSome? o.objection? = none) :
    m'.functions.findSome? o.objection? = none := by
  rw [List.findSome?_eq_none_iff] at hnone ⊢
  intro g' hg'
  obtain ⟨g, hg, hgg'⟩ := h.header (hwf'.mem_functions.1 hg')
  have hsame : o.objection? g' = o.objection? g := (congrArg o.objection? hgg' :)
  rw [hsame]
  exact hnone g (hwf.mem_functions.2 (by rwa [hwf.id_eq hg]))

theorem Legible.of_findSome? {o : Options} (hwf : m.WellFormed)
    (h : m.functions.findSome? o.objection? = none) : m.Legible := by
  intro f
  rcases hf : m.function? f with _ | g
  · exact ⟨none, phaseOf_of_not_contains (by simp [contains, hf])⟩
  · obtain rfl := hwf.id_eq hf
    have hg := List.findSome?_eq_none_iff.1 h g (hwf.mem_functions.2 hf)
    rw [o.objection?_eq hf] at hg
    rcases hp : phaseOf m g.id with fault | p
    · simp [hp] at hg
    · exact ⟨p, rfl⟩

theorem Legible.not_malformed {o : Options} (h : m.Legible) (hwf : m.WellFormed)
    {cause : Malformation} : m.functions.findSome? o.objection? ≠ some (.malformed cause) := by
  intro hfind
  obtain ⟨g, hmem, hg⟩ := List.exists_of_findSome?_eq_some hfind
  obtain ⟨p, hp⟩ := h g.id
  rw [o.objection?_eq (hwf.mem_functions.1 hmem), hp] at hg
  simp only [] at hg
  split_ifs at hg
  cases hg

end Module

open PhasedInlining.Module

section Stops

variable {o : Options} {r : Run Module}

/-- A run stops where its checks object to a function, or where scanning does not come to an end,
and nowhere else. -/
theorem lower_stops (hwf : r.target.WellFormed) :
    Ends (fun _ => r.target.functions.findSome? o.objection? = none)
      (fun halt => halt.target = r.target
          ∧ r.target.functions.findSome? o.objection? = some halt.fault
        ∨ r.target.functions.findSome? o.objection? = none
          ∧ ∃ cap, o.strategy = .rescan cap ∧ halt.fault = .notConverged o.phase cap)
      (lower o r) := by
  have hvalidate := o.validate_stops (r := { r with log := {} }) hwf
  rcases hv : o.validate { r with log := {} } with halt | r₀ <;> rw [hv] at hvalidate
  · rw [lower_eq, hv]
    exact .inl hvalidate
  · have hlegible := Legible.of_findSome? hwf hvalidate.2
    have hframe := (lower_frames o (List.mem_singleton_self _) r ⟨hwf, .refl _⟩).2
    have hends := lower_halts hv
    rcases hl : lower o r with halt | ⟨r', out⟩ <;> rw [hl] at hframe hends
    · exact .inr ⟨hvalidate.2, hends.resolve_left (hlegible.not_unreadable hframe)⟩
    · exact hvalidate.2

/-- Where a row of phases stops, one of them does, on what those before it have left. -/
theorem lowerAll_eq_error {σ : Type} [Target σ] {phases : List Nat} {r : Run σ} {halt : Halt σ}
    (h : lowerAll o phases r = .error halt) : ∃ pre p post r₁ os, phases = pre ++ p :: post
      ∧ lowerAll o pre r = .ok (r₁, os) ∧ lower { o with phase := p } r₁ = .error halt := by
  obtain ⟨pre, p, post, ⟨r₁, os⟩, hphases, hpre, hp⟩ := foldlM_eq_error h
  refine ⟨pre, p, post, r₁, os, hphases, hpre, ?_⟩
  unfold lowerNext at hp
  rcases hl : lower { o with phase := p } r₁ with halt' | e <;> rw [hl] at hp
  · cases hp
    rfl
  · cases hp

/-- A phase that has been lowered has read all tags. -/
theorem legible_of_lowerAll (hwf : r.target.WellFormed) {phases : List Nat} {r' : Run Module}
    {os : Outcomes} (h : lowerAll o phases r = .ok (r', os)) (hne : phases ≠ []) :
    r.target.Legible := by
  obtain ⟨p, rest, rfl⟩ := List.exists_cons_of_ne_nil hne
  unfold lowerAll at h
  rw [List.foldlM_cons] at h
  obtain ⟨e, hnext, -⟩ := bind_eq_ok.1 h
  obtain ⟨r₁, out, hlower, -⟩ := lowerNext_ok o hnext
  have hstops := lower_stops (o := { o with phase := p }) hwf
  rw [hlower] at hstops
  exact .of_findSome? hwf hstops

end Stops

/-- A function that a run objects to stops it before anything has changed, and nothing else does but
scanning without end. A row of phases changes nothing either if it stops at a tag, and if it stops
at a protected function it leaves what the phases before have made. -/
theorem lowering_stops (o : Options) {r : Run Module} (hwf : r.target.WellFormed) :
    (∀ fault, r.target.functions.findSome? o.objection? = some fault →
      ∃ halt, lower o r = .error halt ∧ halt.fault = fault ∧ halt.target = r.target)
    ∧ (r.target.functions.findSome? o.objection? = none →
      (∃ r' out, lower o r = .ok (r', out))
      ∨ ∃ cap halt, o.strategy = .rescan cap ∧ lower o r = .error halt
        ∧ halt.fault = .notConverged o.phase cap)
    ∧ ∀ phases halt, lowerAll o phases r = .error halt →
      (∀ cause, halt.fault = .malformed cause → halt.target = r.target)
      ∧ ∀ cause, halt.fault = .invariantViolation cause →
        ∃ pre p post r₁ os, phases = pre ++ p :: post ∧ lowerAll o pre r = .ok (r₁, os)
          ∧ lower { o with phase := p } r₁ = .error halt ∧ halt.target = r₁.target := by
  have hstops := lower_stops (o := o) hwf
  refine ⟨fun fault hfault => ?_, fun hnone => ?_, fun phases halt h => ?_⟩
  · rcases hl : lower o r with halt | e <;> rw [hl] at hstops
    · rcases hstops with ⟨htarget, hfind⟩ | ⟨hfind, -⟩
      · exact ⟨halt, rfl, Option.some.inj (hfind.symm.trans hfault), htarget⟩
      · exact nomatch hfault.symm.trans hfind
    · exact nomatch hfault.symm.trans hstops
  · rcases hl : lower o r with halt | e <;> rw [hl] at hstops
    · rcases hstops with ⟨-, hfind⟩ | ⟨-, cap, hcap, hfault⟩
      · exact nomatch hnone.symm.trans hfind
      · exact .inr ⟨cap, halt, hcap, rfl, hfault⟩
    · exact .inl ⟨e.1, e.2, rfl⟩
  · obtain ⟨pre, p, post, r₁, os, hphases, hpre, hp⟩ := lowerAll_eq_error h
    obtain ⟨hwf₁, hframe⟩ := lowerAll_frames o hwf pre
    rw [hpre] at hwf₁ hframe
    have hstops₁ := lower_stops (o := { o with phase := p }) (r := r₁) hwf₁
    rw [hp] at hstops₁
    rcases hstops₁ with ⟨htarget, hfind⟩ | ⟨-, cap, -, hfault⟩
    · refine ⟨fun cause hcause => ?_, fun cause _ => ?_⟩
      · by_cases hne : pre = []
        · subst hne
          cases hpre
          exact htarget
        · have hlegible := (legible_of_lowerAll hwf hpre hne).frames hframe
          rw [hcause] at hfind
          exact absurd hfind (hlegible.not_malformed hwf₁)
      · exact ⟨pre, p, post, r₁, os, hphases, hpre, hp, htarget⟩
    · rw [hfault]
      exact ⟨fun _ hcause => (nomatch hcause), fun _ hcause => (nomatch hcause)⟩

/-- A protected function, marked for the second of two phases. -/
def Module.guarded : Module :=
  (build "guarded" [
    (({ name := "leaf" } : Function).withPhase 1, some [.op "work", .ret]),
    ((({ name := "main" } : Function).withPhase 2).withProtection,
      some [.call () (.direct ⟨0⟩), .ret])]).2

theorem Module.guarded_wellFormed : guarded.WellFormed := .build _ _

/-- The second phase stops with the first phase done. Alone it stops with nothing done. -/
theorem lowering_stops_guarded :
    (∃ halt, lower { phase := 2 } ({ target := guarded } : Run Module) = .error halt
      ∧ halt.fault = .invariantViolation (.protectedMarked ⟨1⟩ "main" 2)
      ∧ halt.target = guarded)
    ∧ ∃ halt pre p post r₁ os,
      lowerAll {} [1, 2] ({ target := guarded } : Run Module) = .error halt
      ∧ halt.fault = .invariantViolation (.protectedMarked ⟨1⟩ "main" 2)
      ∧ halt.target.contains ⟨0⟩ = false ∧ [1, 2] = pre ++ p :: post
      ∧ lowerAll {} pre ({ target := guarded } : Run Module) = .ok (r₁, os)
      ∧ halt.target = r₁.target := by
  obtain ⟨hfound, -, -⟩ :=
    lowering_stops { phase := 2 } (r := { target := guarded }) guarded_wellFormed
  obtain ⟨-, -, hrow⟩ := lowering_stops {} (r := { target := guarded }) guarded_wellFormed
  refine ⟨hfound _ (by decide +kernel), ?_⟩
  have hrun : (match lowerAll {} [1, 2] ({ target := guarded } : Run Module) with
      | .ok _ => false
      | .error halt => decide (halt.fault = .invariantViolation (.protectedMarked ⟨1⟩ "main" 2)
        ∧ halt.target.contains ⟨0⟩ = false)) = true := by decide +kernel
  rcases h : lowerAll {} [1, 2] ({ target := guarded } : Run Module) with halt | e <;>
    rw [h] at hrun
  · obtain ⟨hfault, hgone⟩ := of_decide_eq_true hrun
    obtain ⟨pre, p, post, r₁, os, hphases, hpre, -, htarget⟩ := (hrow _ _ h).2 _ hfault
    exact ⟨halt, pre, p, post, r₁, os, rfl, hfault, hgone, hphases, hpre, htarget⟩
  · cases hrun

end PhasedInlining
