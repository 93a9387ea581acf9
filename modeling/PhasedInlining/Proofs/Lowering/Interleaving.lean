import PhasedInlining.Proofs.CallGraph.Exactness
import PhasedInlining.Proofs.Lowering.Passes

/-!
# Draining while inlining

Inlining callees first can be done in one loop that takes a function from the worklist, resolves
the recorded calls to it, and inlines each of them at once (`Interleaves`). What becomes ready does
not depend on what the target does meanwhile, so the loop takes the functions that draining hands
out, in that order, and reports what draining reports.
-/

namespace PhasedInlining

variable {σ : Type} [Target σ]

namespace Inlining

/-- Resolves a recorded call of `callee`, and inlines it if `callee` is of the phase. -/
def attend (phase : Nat) (callee : FunctionId) (marked : Bool) (state : Worklist × Inlining σ)
    (call : FunctionId × CallSiteId) : Worklist × Inlining σ :=
  ((state.1.resolve call.1).2, if marked then state.2.attempt phase callee call else state.2)

/-- Taking functions from the worklist, and attending to the recorded calls of each before the next
is taken, ends as stated: when no function is ready, or at a tag that cannot be read. -/
inductive Interleaves (phase : Nat) (snapshot : Snapshot) :
    Worklist × Inlining σ → Except (Halt σ) (Worklist × Inlining σ) → Prop
  | done {w : Worklist} {s : Inlining σ} (h : w.next? = none) :
    Interleaves phase snapshot (w, s) (.ok (w, s))
  | halt {w w₁ : Worklist} {s : Inlining σ} {f : FunctionId} {halt : Halt σ}
    (h : w.next? = some (f, w₁)) (hf : s.check (isMarked phase s.target f) = .error halt) :
    Interleaves phase snapshot (w, s) (.error halt)
  | step {w w₁ : Worklist} {s : Inlining σ} {f : FunctionId} {marked : Bool}
    {e : Except (Halt σ) (Worklist × Inlining σ)} (h : w.next? = some (f, w₁))
    (hf : s.check (isMarked phase s.target f) = .ok marked)
    (hrest : Interleaves phase snapshot
      ((snapshot.callsTo f).foldl (attend phase f marked) (w₁, s)) e) :
    Interleaves phase snapshot (w, s) e

/-- Resolving and inlining do not get in each other's way. -/
theorem foldl_attend (phase : Nat) (f : FunctionId) (marked : Bool) :
    ∀ (calls : List (FunctionId × CallSiteId)) (w : Worklist) (s : Inlining σ),
      calls.foldl (attend phase f marked) (w, s)
        = (calls.foldl (fun w call => (w.resolve call.1).2) w,
          if marked then calls.foldl (attempt phase f) s else s)
  | [], _, s => by cases marked <;> rfl
  | call :: calls, w, s => by
    rw [List.foldl_cons, attend, foldl_attend phase f marked calls]
    cases marked <;> rfl

/-- The loop visits the functions that draining hands out. -/
theorem interleaves_of_drains (phase : Nat) {snapshot : Snapshot} {w w' : Worklist}
    {fs : List FunctionId} (h : w.Drains snapshot fs w') (s : Inlining σ) :
    Interleaves phase snapshot (w, s)
      ((fs.foldlM (visit phase snapshot) s).map fun s' => (w', s')) := by
  induction h generalizing s with
  | done hnext => exact .done hnext
  | @step w w₁ w' f fs hnext _ ih =>
    rw [List.foldlM_cons]
    rcases hm : s.check (isMarked phase s.target f) with halt | marked
    · rw [visit, hm]
      exact .halt hnext hm
    · rw [visit, hm]
      refine .step hnext hm ?_
      rw [foldl_attend]
      exact ih _

end Inlining

/-- Inlining callees first is the loop, and reports the worklist that it ends with. -/
theorem bottomUp_interleaves (phase : Nat) {snapshot : Snapshot} {es : List CallEdge}
    (h : snapshot.Records es) (r : Run σ) : ∃ e,
    Inlining.Interleaves phase snapshot (.seed snapshot, { r with }) e
      ∧ bottomUp phase snapshot r = e.map fun (w, s) => (s.toRun, s.report w) := by
  refine ⟨_, Inlining.interleaves_of_drains phase (Snapshot.drains_drain h) _, ?_⟩
  rw [bottomUp]
  rcases snapshot.drain.ready.toList.foldlM (Inlining.visit phase snapshot) { r with }
    with _ | _ <;> rfl

/-- Draining a snapshot hands out every function at most once, after all that it calls, and leaves
exactly the functions from which a call cycle can be reached. Inlining callees first, done in one
loop with draining and whatever the target does, reports the same. -/
theorem drain_exact {τ : Type} [CallSource τ] (t : τ) :
    let s := Snapshot.ofSource t
    let w := s.drain
    (Worklist.seed s).Drains s w.ready.toList w
      ∧ w.ready.toList.Nodup
      ∧ (∀ pre f post, w.ready.toList = pre ++ f :: post →
        s.contains f ∧ ∀ c, s.Calls f c → c ∈ pre)
      ∧ w.unresolved.Pairwise (· < ·)
      ∧ (∀ f, f ∈ w.unresolved ↔ s.contains f ∧ ReachesCycle s.Calls f)
      ∧ w.processed = w.ready.size
      ∧ w.processed + w.unresolved.length = w.total
      ∧ w.total = s.functionCount
      ∧ ∀ {σ : Type} [Target σ] (phase : Nat) (r : Run σ),
        (∃ e, Inlining.Interleaves phase s (.seed s, { r with }) e
          ∧ bottomUp phase s r = e.map fun (v, i) => (i.toRun, i.report v))
        ∧ ∀ r' report, bottomUp phase s r = .ok (r', report) →
          report.processed = w.processed ∧ report.total = w.total
            ∧ report.unresolved = w.unresolved := by
  have h := Snapshot.records_ofSource t
  obtain ⟨hp, hend⟩ := Snapshot.progress_drain h
  refine ⟨Snapshot.drains_drain h, hp.nodup, fun pre f post hsplit => ⟨?_, fun c hc => ?_⟩,
    Worklist.unresolved_pairwise _, fun f => Snapshot.mem_unresolved_iff h, hend,
    Snapshot.processed_add_unresolved h, Snapshot.total_drain h, fun phase r => ⟨?_, ?_⟩⟩
  · exact hp.contains_of_mem (by simp [hsplit])
  · exact Snapshot.callee_handed_out h hsplit hc
  · exact bottomUp_interleaves phase h r
  · intro r' report hok
    obtain ⟨s, -, heq⟩ := map_eq_ok.1 hok
    cases heq
    exact ⟨rfl, rfl, rfl⟩

end PhasedInlining
