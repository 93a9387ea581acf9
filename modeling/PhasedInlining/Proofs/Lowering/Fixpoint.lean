import PhasedInlining.Proofs.Lowering.Agreement

/-!
# Scanning what has been scanned

A run that scans until nothing changes leaves a module in which a scan leaves every call alone, as
long as handles do not run out (`Settles.settled`): why a call was left stays true to the end of the
inlining, and the sweep takes neither a caller nor a callee of what it keeps. A run on such a module
makes one scan and changes nothing (`rescan_idle`).
-/

namespace PhasedInlining

open CallSource Target

/-- A scan leaves all calls to functions of the phase alone. -/
def Module.Settled (phase : Nat) (m : Module) : Prop :=
  ∀ {f c x}, .call x (.direct c) ∈ m.instrsOf f → m.hasBody c → isMarked phase m c = .ok true →
    m.Spares f c

section Stages

variable {o : Options} {m₀ m m₁ : Module} (hs : Stages o m₀ m m₁) {f g : FunctionId}
include hs

theorem Stages.calls_iff (hf : m₁.contains f) (hg : m₁.contains g) :
    m₁.Calls f g ↔ m.Calls f g := by
  rw [Module.Calls, Module.Calls, hs.instrsOf_eq hf,
    Module.hasBody_of_header? ((hs.header?_eq hg).trans (hs.header g).symm)]

theorem Stages.spares_iff (hf : m₁.contains f) (hg : m₁.contains g) :
    m₁.Spares f g ↔ m.Spares f g := by
  rw [Module.Spares, Module.Spares, hs.prunes.function?_eq g hg, hs.calls_iff hg hg,
    hs.calls_iff hg hf]

theorem Settles.settled {log : EventLog} (h : Settles o.phase m₀ m log)
    (hroom : ∀ f, ¬ log.Starved f) : m₁.Settled o.phase := by
  intro f c x hx hc hmarked
  have hf := Module.contains_of_mem hx
  have hlive := Module.contains_of_hasBody hc
  have hhead := hs.header?_eq hlive
  rw [hs.instrsOf_eq hf] at hx
  rw [Module.hasBody_of_header? hhead] at hc
  rw [Module.isMarked_of_header? hhead] at hmarked
  rw [hs.spares_iff hf hlive]
  exact (h.left hx hc hmarked).resolve_right (hroom c)

end Stages

namespace Scan

variable {phase : Nat} {m : Module} {s : Scan Module}

/-- So far the scan has not changed `m`. -/
structure Idle (m : Module) (s : Scan Module) : Prop where
  target : s.target = m
  calls : s.calls.Exact m
  inlined : s.inlined = 0
  changed : s.changed = false

theorem Idle.attempt (h : s.Idle m) (number : Nat) {f c : FunctionId} {site : CallSiteId}
    (hsite : m.currentCallee? site = some c) (hc : m.Spares f c) :
    (s.attempt phase number f c site).Idle m := by
  rw [← h.target] at hsite
  cases attempt_cases phase number s f c hsite with
  | left target _ calls changed inlined _ =>
    exact ⟨target.trans h.target, calls ▸ h.calls, inlined.trans h.inlined,
      changed.trans h.changed⟩
  | done _ k splices self back _ _ _ =>
    exfalso
    rcases hc with ⟨g, hg, hno⟩ | hself | hback
    · rw [← h.target, splices.callee_eq, Option.some.injEq] at hg
      rw [← hg, splices.noInline] at hno
      cases hno
    · exact self (h.calls.contains_iff.2 hself.2)
    · exact back (h.calls.contains_iff.2 hback.2)

theorem Idle.visit (h : s.Idle m) (hwf : m.WellFormed) (hsettled : m.Settled phase) (number : Nat)
    (htags : ∀ f, m.hasBody f → ∃ marked, isMarked phase m f = .ok marked) {e : CallEdge}
    (he : e ∈ m.callEdges) : ∃ s', s.visit phase number e = .ok s' ∧ s'.Idle m := by
  have hcall := hwf.mem_callEdges.1 he
  unfold Scan.visit
  split
  · exact ⟨s, rfl, h⟩
  · rename_i c ht
    rw [ht] at hcall
    split_ifs with hskip
    · exact ⟨s, rfl, h⟩
    · simp only [Bool.or_eq_true, not_or, Bool.not_eq_true', Bool.not_eq_false] at hskip
      have hc : m.hasBody c := by
        rw [← h.target]
        exact hskip.2
      obtain ⟨marked, hmarked⟩ := htags c hc
      rw [← h.target] at hmarked
      refine ⟨_, map_eq_ok.2 ⟨marked, Run.check_eq_ok.2 hmarked, rfl⟩, ?_⟩
      split_ifs with hgo
      · simp only [Bool.and_eq_true] at hgo
        rw [h.target, hgo.1] at hmarked
        exact h.attempt number (hwf.currentCallee?_iff.2 ⟨_, hcall⟩) (hsettled hcall hc hmarked)
      · exact h

end Scan

theorem rescan_idle {phase cap : Nat} (hcap : 0 < cap) {r : Run Module}
    (hwf : r.target.WellFormed) (hsettled : r.target.Settled phase)
    (htags : ∀ f, r.target.hasBody f → ∃ marked, isMarked phase r.target f = .ok marked) :
    ∃ r' report, rescan phase cap r = .ok (r', report) ∧ r'.target = r.target
      ∧ report.inlined = 0 := by
  rcases cap with _ | left
  · exact absurd hcap (Nat.lt_irrefl 0)
  have hstart : Scan.Idle r.target
      { r with calls := .ofEdges r.target.callEdges, changed := false } :=
    ⟨rfl, CallCounts.exact_ofEdges hwf, rfl, rfl⟩
  obtain ⟨s, hs, hidle⟩ := foldlM_ok r.target.callEdges (fun _ e he (h : Scan.Idle r.target _) =>
    h.visit hwf hsettled (left + 1 - left) htags he) hstart
  have honce : Scan.once phase (left + 1 - left) ({ r with } : Scan Module) = .ok s := hs
  refine ⟨s.toRun, s.report (Snapshot.ofSource s.target).drain, ?_, hidle.target, hidle.inlined⟩
  rw [rescan, Scan.repeated, honce]
  simp only [hidle.changed]
  rfl

theorem cap_pos_of_rescan {phase cap : Nat} {r r' : Run Module} {report : InlineReport}
    (h : rescan phase cap r = .ok (r', report)) : 0 < cap := by
  rcases cap with _ | cap
  · cases h
  · exact Nat.succ_pos cap

section Lower

variable {o : Options} {cap : Nat} (ho : o.strategy = .rescan cap)
include ho

theorem lower_settles {r r₁ : Run Module} {out : Outcome} (hwf : r.target.WellFormed)
    (h : lower o r = .ok (r₁, out)) :
    0 < cap ∧ ∃ m log, Settles o.phase r.target m log ∧ Stages o r.target m r₁.target
      ∧ log.Grows out.log := by
  obtain ⟨r₀, report, r₂, removed, hinlined, hsweep, hcomplete⟩ := (lower_stages o).1 h
  have hstages := stages_of_lower hwf hinlined hsweep
  obtain ⟨v, -, htarget, hinline⟩ := o.inlineStage_ok.1 hinlined
  rw [Options.inlinePhase, ho] at hinline
  cases hcomplete
  refine ⟨cap_pos_of_rescan hinline, r₀.target, r₀.log, ?_, hstages, ?_⟩
  · rw [← htarget] at hwf ⊢
    exact rescan_settles (r := (o.begin v).1) hwf hinline
  · exact (o.grows_diagnose _ _ _).trans ((o.grows_sweepPhase hsweep).trans
      (EventLog.grows_record _ _))

theorem lower_idle (hcap : 0 < cap) {m₀ m m₁ : Module} (hstages : Stages o m₀ m m₁)
    (hsettled : m₁.Settled o.phase) {r : Run Module} (hr : r.target = m₁) :
    ∃ r' out, lower o r = .ok (r', out) ∧ out.changed = false ∧ r'.target = m₁ := by
  have hwf : r.target.WellFormed := hr ▸ hstages.prunes.wf
  have haccepts : ∀ f, r.target.contains f → o.Accepts r.target f := fun f hf =>
    hr ▸ hstages.accepts (hr ▸ hf)
  obtain ⟨r₀, hvalid⟩ : ∃ r₀, o.validate { r with log := {} } = .ok r₀ :=
    o.validate_ok.2 fun f hf => haccepts f (hwf.mem_functionIds.1 hf)
  have htarget : (o.begin r₀).1.target = r.target := (o.target_validate hvalid :)
  obtain ⟨r₁, report, hrescan, htarget₁, hinlined⟩ : ∃ r₁ report,
      rescan o.phase cap (o.begin r₀).1 = .ok (r₁, report)
        ∧ r₁.target = (o.begin r₀).1.target ∧ report.inlined = 0 := by
    refine rescan_idle hcap (htarget ▸ hwf) (by rw [htarget, hr]; exact hsettled) fun f hf => ?_
    rw [htarget] at hf ⊢
    obtain ⟨marked, hmarked, -⟩ := haccepts f (Module.contains_of_hasBody hf)
    exact ⟨marked, hmarked⟩
  have hm₁ : r₁.target = m₁ := htarget₁.trans (htarget.trans hr)
  have hsweep := hstages.sweepPhase_idle
    (r := (o.diagnose (Snapshot.ofSource r.target) report r₁).1) (by rw [o.target_diagnose, hm₁])
  refine ⟨_, _, (lower_stages o).2 ⟨r₁, report, _, [], o.inlineStage_ok.2 ⟨r₀, hvalid, htarget, ?_⟩,
    hsweep, rfl⟩, ?_, ?_⟩
  · rw [Options.inlinePhase, ho]
    exact hrescan
  · simp [InlineReport.changed, hinlined]
  · simpa [Options.complete] using hm₁

end Lower

/-- What scanning leaves is a fixpoint, as long as handles do not run out. A call to a function of
the phase is left only if the function must not be copied, calls itself or calls the caller, and
the same run again changes nothing, whatever events and lines it starts from. -/
theorem rescan_reaches_fixpoint {o : Options} {cap : Nat} (ho : o.strategy = .rescan cap)
    {r r₁ : Run Module} {out : Outcome} (hwf : r.target.WellFormed)
    (h : lower o r = .ok (r₁, out)) (hroom : ∀ f, ¬ out.log.Starved f) :
    (∀ f y x g, .call x (.direct y) ∈ r₁.target.instrsOf f → r₁.target.function? y = some g →
      g.hasBody → isMarked o.phase r₁.target y = .ok true →
        g.flags.noInline ∨ r₁.target.Calls y y ∨ r₁.target.Calls y f)
    ∧ ∀ r₂ : Run Module, r₂.target = r₁.target → ∃ r₃ out₃, lower o r₂ = .ok (r₃, out₃)
      ∧ out₃.changed = false ∧ r₃.target = r₁.target := by
  obtain ⟨hcap, m, log, hsettles, hstages, hgrows⟩ := lower_settles ho hwf h
  have hsettled : r₁.target.Settled o.phase :=
    hsettles.settled hstages fun f hf => hroom f (hf.grows hgrows)
  refine ⟨fun f y x g hx hg hbody hmarked => ?_, fun r₂ hr₂ => ?_⟩
  · rcases hsettled hx (by simp [Module.hasBody, hg, hbody]) hmarked with ⟨k, hk, hno⟩ | hcalls
    · rw [hg, Option.some.injEq] at hk
      exact .inl (hk ▸ hno)
    · exact .inr hcalls
  · exact lower_idle ho hcap hstages hsettled hr₂

/-- Two functions that call each other, and a leaf that one of them calls. All are marked for
phase 1. -/
def Module.pingPong : Module :=
  (build "ping pong" [
    (({ name := "leaf" } : Function).withPhase 1, some [.op "work", .ret]),
    (({ name := "ping" } : Function).withPhase 1,
      some [.call () (.direct ⟨0⟩), .call () (.direct ⟨2⟩)]),
    (({ name := "pong" } : Function).withPhase 1, some [.call () (.direct ⟨1⟩), .ret])]).2

theorem Module.pingPong_wellFormed : pingPong.WellFormed := .build _ _

/-- The leaf is inlined. The two functions go on to call each other, and are left as they are. -/
theorem rescan_reaches_fixpoint_pingPong : ∃ r₁ out,
    lower { phase := 1, strategy := .rescan 4 } { target := Module.pingPong } = .ok (r₁, out)
      ∧ out.changed ∧ .call ⟨1⟩ (.direct ⟨2⟩) ∈ r₁.target.instrsOf ⟨1⟩ ∧ r₁.target.Calls ⟨2⟩ ⟨1⟩
      ∧ ∃ r₃ out₃, lower { phase := 1, strategy := .rescan 4 } { target := r₁.target }
          = .ok (r₃, out₃) ∧ out₃.changed = false ∧ r₃.target = r₁.target := by
  have hrun : (lower { phase := 1, strategy := .rescan 4 }
      { target := Module.pingPong }).toOption.any (fun e =>
        e.2.changed ∧ e.2.log.HasRoom ∧ .call ⟨1⟩ (.direct ⟨2⟩) ∈ e.1.target.instrsOf ⟨1⟩
          ∧ (e.1.target.function? ⟨2⟩).any (·.isInlinable)
          ∧ (isMarked 1 e.1.target ⟨2⟩).toOption = some true
          ∧ ⟨2⟩ ∉ Body.callees (e.1.target.instrsOf ⟨2⟩)) = true := by
    decide +kernel
  obtain ⟨⟨r₁, out⟩, h, hcheck⟩ := exists_ok_of_any hrun
  obtain ⟨hchanged, hroom, hcall, hinlinable, hmarked, hself⟩ := of_decide_eq_true hcheck
  obtain ⟨g, hg, hgi⟩ := (Option.any_eq_true _ _).1 hinlinable
  simp only [Function.isInlinable, Bool.and_eq_true, Bool.not_eq_true'] at hgi
  obtain ⟨hleft, hagain⟩ := rescan_reaches_fixpoint (r := { target := Module.pingPong }) rfl
    Module.pingPong_wellFormed h hroom.not_starved
  refine ⟨r₁, out, h, hchanged, hcall, ?_, hagain { target := r₁.target } rfl⟩
  rcases hleft _ _ _ g hcall hg hgi.1 (toOption_eq_some.1 hmarked) with hno | hloop | hback
  · cases hgi.2.symm.trans hno
  · exact absurd (Module.calls_iff_mem_callees.1 hloop).2 hself
  · exact hback

end PhasedInlining
