import Mathlib.Data.Finset.Card
import PhasedInlining.Proofs.Lowering.Fixpoint
import PhasedInlining.Proofs.Lowering.Residue

/-!
# When scanning comes to an end

A scan goes once through the calls that it finds and either leaves them alone for good or replaces
them by calls of the callee. If these go to functions of lower rank wherever the guards let a body
be copied (`Descends`), the calls that are still to be tried go to functions of ever lower rank, and
scanning ends after as many scans as there are ranks (`rescan_ends`).

Where no call cycle has more than two functions, the number of functions that can be reached is such
a rank, but for a pair of functions that call each other and are called from elsewhere. The guards
look at the callee and the caller only, and a third function takes the one body after the other
(`Module.entered`): scanning comes to an end exactly if there is no such pair, as long as handles do
not run out (`descends_reach`, `Settles.pairsApart`).
-/

namespace PhasedInlining

open CallSource Target
open Relation (ReflTransGen TransGen)

namespace Module

/-- The guards let a scan copy the body of `f`, unless `f` calls the caller. -/
def Open (phase : Nat) (m : Module) (f : FunctionId) : Prop :=
  m.Inlinable phase f ∧ ¬ m.Calls f f

end Module

/-- Wherever the guards let a body be copied, the calls in it go to functions of lower rank. -/
structure Descends (phase : Nat) (m₀ : Module) (rank : FunctionId → Nat) : Prop where
  pos : ∀ {f}, m₀.Open phase f → 0 < rank f
  lt : ∀ {m x y z}, Inlined phase m₀ m → m.Calls x y → ¬ m.Calls y y → ¬ m.Calls y x →
    m.Calls y z → m₀.Open phase y → m₀.Open phase z → rank z < rank y

section Scans

variable {phase n : Nat} {m₀ m : Module} {rank : FunctionId → Nat} {done : List CallEdge}
  {s s' : Scan Module} {e : CallEdge} {c : FunctionId}

/-- The calls still to be tried go to functions of rank `n` at most. -/
def Bounded (phase : Nat) (m₀ : Module) (rank : FunctionId → Nat) (n : Nat) (s : Scan Module) :
    Prop :=
  ∀ {f c x}, .call x (.direct c) ∈ s.target.instrsOf f → x ∉ s.refused → m₀.Open phase c →
    rank c ≤ n

/-- A scan of calls to functions of rank `n` at most brings calls to functions of lower rank. -/
structure Descending (phase : Nat) (m₀ m : Module) (rank : FunctionId → Nat) (n : Nat)
    (done : List CallEdge) (s : Scan Module) : Prop extends Scanning phase m₀ m done s where
  old : Bounded phase m₀ rank n s
  fresh : ∀ {f c x}, .call x (.direct c) ∈ s.target.instrsOf f → m.nextSite ≤ x.value →
    m₀.Open phase c → rank c < n
  idle : n = 0 → s.changed = false

theorem Descending.attempt (h : Descending phase m₀ m rank n done s)
    (hd : Descends phase m₀ rank) (hm : m.WellFormed) (number : Nat) (he : e ∈ m.callEdges)
    (hrefused : e.site ∉ s.refused) (hc : m₀.hasBody c) (hmarked : isMarked phase m₀ c = .ok true)
    (hsite : s.target.currentCallee? e.site = some c) :
    Descending phase m₀ m rank n (done ++ [e]) (s.attempt phase number e.caller c e.site) := by
  have hscan := h.toScanning.attempt hm number he hc hmarked hsite
  have hx := h.call_mem hm he hsite
  cases Scan.attempt_cases phase number s e.caller c hsite with
  | left target refused _ changed _ _ =>
    refine ⟨hscan, fun hx' hxr ho => ?_, fun hx' hnew ho => ?_, fun hn => ?_⟩
    · rw [target] at hx'
      rw [refused, Std.TreeSet.mem_insert, not_or] at hxr
      exact h.old hx' hxr.2 ho
    · rw [target] at hx'
      exact h.fresh hx' hnew ho
    · rw [changed]
      exact h.idle hn
  | done f g splices self back refused _ changed =>
    obtain rfl : f = e.caller := h.caller_eq hm he splices
    rw [h.calls_iff hc] at self
    rw [h.calls_iff (h.hasBody_caller hm he hsite)] at back
    have hopen : m₀.Open phase c :=
      ⟨h.inlined.inlinable splices hmarked, fun hloop => self (h.inlined.cycles.loops hloop)⟩
    have hrank := h.old hx hrefused hopen
    have hpos := hd.pos hopen
    have hcopied : ∀ {y z}, .call y (.direct z) ∈ s.target.instrsOf c → m₀.Open phase z →
        rank z < n := by
      intro y z hy hz
      have hbody : ∀ {k}, m₀.hasBody k → s.target.hasBody k := fun {k} hk => by
        rwa [Module.hasBody_of_header? (h.inlined.header k)]
      have hlt := hd.lt h.inlined ⟨hbody hc, _, hx⟩ self back ⟨hbody hz.1.hasBody, _, hy⟩ hopen hz
      omega
    refine ⟨hscan, fun hx' hxr ho => ?_, fun hx' hnew ho => ?_, fun hn => ?_⟩
    · rw [refused] at hxr
      rcases splices.mem_call h.inlined.wf hx' with ⟨hx', -⟩ | ⟨-, y, hy⟩
      · exact h.old hx' hxr ho
      · exact Nat.le_of_lt (hcopied hy ho)
    · rcases splices.mem_call h.inlined.wf hx' with ⟨hx', -⟩ | ⟨-, y, hy⟩
      · exact h.fresh hx' hnew ho
      · exact hcopied hy ho
    · omega

theorem Descending.visit (h : Descending phase m₀ m rank n done s) (hd : Descends phase m₀ rank)
    (hm : m.WellFormed) {number : Nat} (he : e ∈ m.callEdges)
    (hvisit : s.visit phase number e = .ok s') :
    Descending phase m₀ m rank n (done ++ [e]) s' := by
  have hscan := h.toScanning.visit hm he hvisit
  rcases Scan.visit_cases hvisit with ⟨rfl, -⟩ | ⟨c, hrefused, hbody, hmarked, hsite, rfl⟩
  · exact ⟨hscan, h.old, h.fresh, h.idle⟩
  · rw [h.inlined.isMarked_eq] at hmarked
    rw [Module.hasBody_of_header? (h.inlined.header c)] at hbody
    exact h.attempt hd hm number he hrefused hbody hmarked hsite

theorem Bounded.once (hb : Bounded phase m₀ rank n s) (hd : Descends phase m₀ rank)
    (hs : Scanned phase m₀ s) {number : Nat} (honce : s.once phase number = .ok s') :
    Scanned phase m₀ s' ∧ Bounded phase m₀ rank (n - 1) s' ∧ (n = 0 → s'.changed = false) := by
  have hwf := hs.inlined.wf
  have hend : Descending phase m₀ s.target rank n s.target.callEdges s' := by
    refine foldlM_keeps (I := Descending phase m₀ s.target rank n)
      (fun hedges hscan hvisit => hscan.visit hd hwf (by simp [hedges]) hvisit) ?_ honce
    refine ⟨hs.start, hb, fun {f c x} hx hnew _ => ?_, fun _ => rfl⟩
    have hlt := hwf.site_lt_of_mem hx
    omega
  refine ⟨hend.toScanned, fun {f c x} hx hxr ho => ?_, hend.idle⟩
  by_cases hold : x.value < s.target.nextSite
  · refine absurd (hend.passed ⟨f, .direct c, x⟩ ?_ hx ho.1.hasBody ho.1.1) hxr
    exact hwf.mem_callEdges.2 (hend.origin hx hold)
  · have hlt := hend.fresh hx (by omega) ho
    omega

/-- The tag of a function with a body cannot be read. -/
def Module.BadTag (phase : Nat) (m : Module) (fault : Fault) : Prop :=
  ∃ f, m.hasBody f ∧ isMarked phase m f = .error fault

theorem Scanned.once_ends (hs : Scanned phase m₀ s) (number : Nat) :
    Ends (fun _ => True) (fun halt => m₀.BadTag phase halt.fault) (s.once phase number) := by
  have hend := ends_foldlM (f := Scan.visit phase number)
    (P := fun s : Scan Module => ∀ f, s.target.header? f = m₀.header? f)
    (Q := fun halt : Halt Module => m₀.BadTag phase halt.fault)
    (b := { s with calls := .ofEdges (callEdges s.target), changed := false })
    (callEdges s.target) (fun s e _ hs => ?_) hs.inlined.header
  · exact hend.imp (fun _ _ => trivial) fun _ h => h
  · have hkeeps : Ends (fun s' : Scan Module => ∀ f, s'.target.header? f = m₀.header? f)
        (fun halt => ∀ f, halt.target.header? f = m₀.header? f) (s.visit phase number e) :=
      Scan.visit_ends (P := fun k : Module => ∀ f, k.header? f = m₀.header? f)
        (fun k x hk f => by rw [k.target_inline x, k.header?_splice, hk]) number s e hs
    rcases hv : s.visit phase number e with halt | s₁
    · obtain ⟨-, f, hbody, hmarked⟩ := Scan.visit_eq_error hv
      rw [Module.isMarked_of_header? (hs f)] at hmarked
      exact ⟨f, (Module.hasBody_of_header? (hs f)).symm.trans hbody, hmarked⟩
    · rwa [hv] at hkeeps

theorem Bounded.repeated (hd : Descends phase m₀ rank) {cap : Nat} : ∀ (left : Nat) {n : Nat}
    {s : Scan Module}, n < left → Scanned phase m₀ s → Bounded phase m₀ rank n s →
      Ends (fun _ => True) (fun halt => m₀.BadTag phase halt.fault) (s.repeated phase cap left)
  | 0, n, s, hn, _, _ => absurd hn (Nat.not_lt_zero n)
  | left + 1, n, s, hn, hs, hb => by
    have hends := hs.once_ends (cap - left)
    unfold Scan.repeated
    rcases ho : s.once phase (cap - left) with halt | s₁ <;> rw [ho] at hends
    · exact hends
    · obtain ⟨hs₁, hb₁, hidle⟩ := hb.once hd hs ho
      simp only []
      split_ifs with hchanged
      · have hpos : n ≠ 0 := fun h0 => by simp [hidle h0] at hchanged
        exact Bounded.repeated hd left (by omega) hs₁ hb₁
      · trivial

theorem rescan_ends {cap : Nat} (hcap : n < cap) {r : Run Module} (hwf : r.target.WellFormed)
    (hd : Descends phase r.target rank) (hrank : ∀ f, r.target.Open phase f → rank f ≤ n) :
    (∃ r' report, rescan phase cap r = .ok (r', report))
      ∨ ∃ halt, rescan phase cap r = .error halt ∧ r.target.BadTag phase halt.fault := by
  have hends : Ends (fun _ => True) (fun halt => r.target.BadTag phase halt.fault)
      (rescan phase cap r) :=
    Bounded.repeated hd cap hcap (Scanned.refl hwf) fun {_ c _} _ _ ho => hrank c ho
  rcases hr : rescan phase cap r with halt | ⟨r', report⟩ <;> rw [hr] at hends
  · exact .inr ⟨halt, rfl, hends⟩
  · exact .inl ⟨r', report, rfl⟩

end Scans

section ShortCycles

variable {phase : Nat} {m : Module}

namespace Module

/-- No call cycle has more than two functions. -/
def ShortCycles (m : Module) : Prop :=
  ∀ {f g k}, TransGen m.Calls f g → TransGen m.Calls g k → TransGen m.Calls k f →
    f = g ∨ g = k ∨ k = f

/-- Two functions that call each other, and whose bodies may be copied, are called by no third. -/
def PairsApart (phase : Nat) (m : Module) : Prop :=
  ∀ {f g k}, f ≠ g → m.Calls f g → m.Calls g f → m.Open phase f → m.Open phase g →
    m.Calls k f → k = g

open scoped Classical in
noncomputable def reach (m : Module) (f : FunctionId) : Finset FunctionId :=
  m.functionIds.toFinset.filter (ReflTransGen m.Calls f)

theorem card_reach_le (f : FunctionId) : (m.reach f).card ≤ m.size := by
  classical
  calc (m.reach f).card ≤ m.functionIds.toFinset.card := Finset.card_filter_le _ _
    _ ≤ m.functionIds.length := List.toFinset_card_le _
    _ = m.size := List.length_map _

variable {f g : FunctionId}

theorem WellFormed.mem_reach (h : m.WellFormed) (hf : m.hasBody f) :
    g ∈ m.reach f ↔ ReflTransGen m.Calls f g := by
  simp only [reach, Finset.mem_filter, List.mem_toFinset, and_iff_right_iff_imp]
  intro hfg
  refine h.mem_functionIds.2 (contains_of_hasBody ?_)
  rcases Relation.reflTransGen_iff_eq_or_transGen.1 hfg with rfl | hfg
  · exact hf
  · exact (hasBody_of_calls hfg).2

theorem WellFormed.card_reach_lt (h : m.WellFormed) (hfg : TransGen m.Calls f g)
    (hgf : ¬ ReflTransGen m.Calls g f) : (m.reach g).card < (m.reach f).card := by
  obtain ⟨hf, hg⟩ := hasBody_of_calls hfg
  refine Finset.card_lt_card (Finset.ssubset_iff_of_subset ?_ |>.2 ⟨f, ?_, ?_⟩)
  · intro k hk
    rw [h.mem_reach hg] at hk
    rw [h.mem_reach hf]
    exact hfg.to_reflTransGen.trans hk
  · exact (h.mem_reach hf).2 .refl
  · exact fun hmem => hgf ((h.mem_reach hg).1 hmem)

/-- Two functions on a call cycle call each other, if cycles are short and the second does not call
itself. -/
theorem ShortCycles.calls (h : m.ShortCycles) (hne : f ≠ g) (hg : ¬ m.Calls g g)
    (hfg : TransGen m.Calls f g) (hgf : TransGen m.Calls g f) : m.Calls f g := by
  obtain ⟨k, hfk, hkg⟩ := TransGen.tail'_iff.1 hfg
  rcases Relation.reflTransGen_iff_eq_or_transGen.1 hfk with rfl | hfk
  · exact hkg
  · rcases h hfk (.single hkg) hgf with rfl | rfl | rfl
    · exact hkg
    · exact absurd hkg hg
    · exact absurd rfl hne

end Module

theorem descends_reach (hwf : m.WellFormed) (hshort : m.ShortCycles) (hapart : m.PairsApart phase) :
    Descends phase m fun f => (m.reach f).card := by
  refine ⟨fun {f} hf => Finset.card_pos.2 ⟨f, (hwf.mem_reach hf.1.hasBody).2 .refl⟩, ?_⟩
  intro k x y z hk hxy hself hback hyz hy hz
  have hxy₀ := hk.cycles.within hxy
  have hyz₀ := hk.cycles.within hyz
  refine hwf.card_reach_lt hyz₀ fun hzy => ?_
  have hne : z ≠ y := by
    rintro rfl
    exact hself hyz
  have hzy₀ := (Relation.reflTransGen_iff_eq_or_transGen.1 hzy).resolve_left hne.symm
  have hcalls := hshort.calls hne.symm hz.2 hyz₀ hzy₀
  have hcalls' := hshort.calls hne hy.2 hzy₀ hyz₀
  have hcaller : ∀ {a b}, m.Calls a b → b = y ∨ b = z → a = y ∨ a = z := by
    rintro a b hab (rfl | rfl)
    · exact .inr (hapart hne.symm hcalls hcalls' hy hz hab)
    · exact .inl (hapart hne hcalls' hcalls hz hy hab)
  have hinside : ∀ {a}, TransGen m.Calls a y → a = y ∨ a = z := by
    intro a ha
    induction ha using TransGen.head_induction_on with
    | single hay => exact hcaller hay (.inl rfl)
    | head hab _ ih => exact hcaller hab ih
  rcases hinside hxy₀ with rfl | rfl
  · exact hself hxy
  · exact hback hyz

theorem exists_entry {α : Type} {r : α → α → Prop} {P : α → Prop} {a b : α} (h : TransGen r a b)
    (ha : ¬ P a) (hb : P b) : ∃ c d, r c d ∧ ¬ P c ∧ P d := by
  induction h using TransGen.head_induction_on with
  | single hab => exact ⟨_, _, hab, ha, hb⟩
  | @head a c hac _ ih =>
    by_cases hc : P c
    · exact ⟨a, c, hac, ha, hc⟩
    · exact ih hc

/-- If scanning has come to an end, no pair that the guards let be copied was called from
elsewhere: the call that leads to the pair would not have been left alone. -/
theorem Settles.pairsApart {m₀ : Module} {log : EventLog} (hs : Settles phase m₀ m log)
    (hroom : ∀ f, ¬ log.Starved f) (hshort : m₀.ShortCycles) : m₀.PairsApart phase := by
  intro f g k hne hfg hgf hf hg hkf
  by_contra hkg
  have hclass : ∀ {a}, TransGen m₀.Calls f a → TransGen m₀.Calls a f → a = f ∨ a = g := by
    intro a hfa haf
    rcases hshort (.single hfg) (.head hgf hfa) haf with h | h | h
    · exact absurd h hne
    · exact .inr h.symm
    · exact .inl h
  have hk : ¬ (k = f ∨ k = g) := by
    rintro (rfl | h)
    · exact hf.2 hkf
    · exact hkg h
  obtain ⟨b, hb, hfb, hbf⟩ := hs.cycles.left (.head hfg (.single hgf))
  obtain ⟨a, c, hac, ha, hc⟩ := exists_entry (P := fun c => c = f ∨ c = g)
    (hs.cycles.reached hb (.head hkf hfb)) hk (hclass hfb hbf)
  have hopen : m₀.Open phase c := by rcases hc with rfl | rfl <;> assumption
  obtain ⟨x, hx⟩ := hac.2
  rcases (hs.left hx hopen.1.hasBody hopen.1.1).resolve_right (hroom c) with
    ⟨i, hi, hno⟩ | hself | hback
  · cases hno.symm.trans (hs.noInline_eq hopen.1 hi)
  · exact hopen.2 (hs.loops hself)
  · have hca := hs.cycles.within hback
    have hac' := hs.cycles.within hac
    rcases hc with rfl | rfl
    · exact ha (hclass hca hac')
    · exact ha (hclass (.head hfg hca) (hac'.tail hgf))

end ShortCycles

/-- Where no call cycle has more than two functions, scanning more often than there are functions
comes to an end if no pair that the guards let be copied is called from elsewhere, unless a tag
cannot be read. As long as handles do not run out it comes to an end only then. -/
theorem rescan_of_short_cycles {phase cap : Nat} {r : Run Module} (hwf : r.target.WellFormed)
    (hshort : r.target.ShortCycles) (hcap : r.target.size < cap) :
    (r.target.PairsApart phase → (∃ r' report, rescan phase cap r = .ok (r', report))
      ∨ ∃ halt, rescan phase cap r = .error halt ∧ r.target.BadTag phase halt.fault)
    ∧ ∀ r' report, rescan phase cap r = .ok (r', report) → (∀ f, ¬ r'.log.Starved f) →
      r.target.PairsApart phase := by
  refine ⟨fun hapart => ?_, fun r' report h hroom => ?_⟩
  · exact rescan_ends hcap hwf (descends_reach hwf hshort hapart) fun f _ => Module.card_reach_le f
  · exact (rescan_settles hwf h).pairsApart hroom hshort

section Examples

variable {m : Module}

theorem Module.WellFormed.shortCycles (h : m.WellFormed) (a b : FunctionId)
    (hcalls : ∀ k ∈ m.functionIds, ∀ f ∈ Body.callees (m.instrsOf k),
      Body.callees (m.instrsOf f) ≠ [] → f = a ∨ f = b) : m.ShortCycles := by
  have htwo : ∀ {f}, TransGen m.Calls f f → f = a ∨ f = b := by
    intro f hf
    obtain ⟨g, hfg, -⟩ := TransGen.head'_iff.1 hf
    obtain ⟨k, -, hkf⟩ := TransGen.tail'_iff.1 hf
    rw [Module.calls_iff_mem_callees] at hfg hkf
    obtain ⟨x, hx⟩ := Body.mem_callees.1 hkf.2
    exact hcalls k (h.mem_functionIds.2 (Module.contains_of_mem hx)) f hkf.2
      (List.ne_nil_of_mem hfg.2)
  intro f g k hfg hgk hkf
  have hf := htwo (hfg.trans (hgk.trans hkf))
  have hg := htwo (hgk.trans (hkf.trans hfg))
  have hk := htwo (hkf.trans (hfg.trans hgk))
  grind

theorem Module.pingPong_pairsApart : Module.pingPong.PairsApart 1 := by
  have hapart : ∀ f ∈ pingPong.functionIds, ∀ g ∈ pingPong.functionIds,
      ∀ k ∈ pingPong.functionIds, f ≠ g → f ∈ Body.callees (pingPong.instrsOf g) →
        f ∈ Body.callees (pingPong.instrsOf k) → k = g := by
    decide +kernel
  have hlive : ∀ {f}, pingPong.hasBody f → f ∈ pingPong.functionIds := fun hf =>
    pingPong_wellFormed.mem_functionIds.2 (contains_of_hasBody hf)
  intro f g k hne hfg hgf _ _ hkf
  refine hapart f (hlive hgf.1) g (hlive hfg.1) k
    (hlive (hasBody_of_calls (.single hkf)).1) hne ?_ ?_
  · exact (calls_iff_mem_callees.1 hgf).2
  · exact (calls_iff_mem_callees.1 hkf).2

/-- The guards keep the two from being copied into each other. -/
theorem rescan_of_short_cycles_pingPong : Module.pingPong.size < 4
    ∧ ∃ r' report, rescan 1 4 { target := Module.pingPong } = .ok (r', report) := by
  have hsize : Module.pingPong.size < 4 := by decide +kernel
  have hshort : Module.pingPong.ShortCycles :=
    Module.pingPong_wellFormed.shortCycles ⟨1⟩ ⟨2⟩ (by decide +kernel)
  have htags : ∀ f ∈ Module.pingPong.functionIds,
      (isMarked 1 Module.pingPong f).toOption.isSome := by
    decide +kernel
  refine ⟨hsize, ((rescan_of_short_cycles (r := { target := Module.pingPong })
    Module.pingPong_wellFormed hshort hsize).1 Module.pingPong_pairsApart).resolve_right ?_⟩
  rintro ⟨halt, -, f, hbody, hmarked⟩
  have hok := htags f (Module.pingPong_wellFormed.mem_functionIds.2
    (Module.contains_of_hasBody hbody))
  rw [show isMarked 1 Module.pingPong f = .error halt.fault from hmarked] at hok
  simp [Except.toOption] at hok

/-- Two functions that call each other, marked for phase 1, and a function that calls one of
them. -/
def Module.entered : Module :=
  (build "entered" [
    (({ name := "ping" } : Function).withPhase 1, some [.call () (.direct ⟨1⟩), .ret]),
    (({ name := "pong" } : Function).withPhase 1, some [.call () (.direct ⟨0⟩), .ret]),
    (({ name := "main" } : Function).withProtection, some [.call () (.direct ⟨0⟩), .ret])]).2

/-- That no call cycle has more than two functions is not enough. -/
theorem rescan_diverges_on_entered : Module.entered.WellFormed ∧ Module.entered.ShortCycles
    ∧ Module.entered.size < 4 ∧ ∃ halt, rescan 1 4 { target := Module.entered } = .error halt
      ∧ halt.fault = .notConverged 1 4 := by
  have hwf : Module.entered.WellFormed := .build _ _
  have hrun : (rescan 1 4 { target := Module.entered }).report = .error (.notConverged 1 4) := by
    decide +kernel
  refine ⟨hwf, hwf.shortCycles ⟨0⟩ ⟨1⟩ (by decide +kernel), by decide +kernel, ?_⟩
  rcases h : rescan 1 4 { target := Module.entered } with halt | e <;> rw [h] at hrun
  · exact ⟨halt, rfl, Except.error.inj hrun⟩
  · cases hrun

end Examples

end PhasedInlining
