import PhasedInlining.Proofs.CallGraph.Drain

/-!
# Worklists under any requests

A worklist answers two requests: hand out a function, and resolve a call of a function. They may
come in any order and for any function, those that are not there and those that are ready already
among them. Whatever comes (`serve`), every function stays in one of three places: handed out,
waiting to be handed out, or unresolved (`serve_accounts`). One request keeps this (`Serves.next`,
`Serves.resolve`), so every row of requests does (`serves_serve`).
-/

namespace PhasedInlining

namespace Worklist

/-- What may be asked of a worklist. -/
inductive Request where
  | next
  | resolve (caller : FunctionId)
deriving DecidableEq

/-- Answers a request. What has been handed out is listed beside the worklist. -/
def answer : List FunctionId × Worklist → Request → List FunctionId × Worklist
  | (given, w), .next =>
    match w.next? with
    | none => (given, w)
    | some (f, w) => (given ++ [f], w)
  | (given, w), .resolve caller => (given, (w.resolve caller).2)

/-- What is handed out for the requests, in order, and the worklist they leave. -/
def serve (w : Worklist) (requests : List Request) : List FunctionId × Worklist :=
  requests.foldl answer ([], w)

/-- The functions that wait to be handed out, the next one first. -/
def queue (w : Worklist) : List FunctionId := w.ready.toList.drop w.processed

/-- After the requests `given` has been handed out and `w` is left of the worklist of `s`. -/
structure Serves (s : Snapshot) (requests : List Request) (given : List FunctionId)
    (w : Worklist) : Prop where
  given_eq : given = w.handedOut
  processed_le : w.processed ≤ w.ready.size
  pending : ∀ f, w.pending[f]? = s.pending[f]?.map (· - requests.count (.resolve f))
  mem_ready : ∀ f, f ∈ w.ready.toList ↔ w.pending[f]? = some 0
  nodup : w.ready.toList.Nodup

variable {s : Snapshot} {w w' : Worklist} {requests : List Request} {given : List FunctionId}

theorem serves_seed (s : Snapshot) : Serves s [] [] (seed s) := by
  refine ⟨?_, Nat.zero_le _, fun f => ?_, fun f => mem_sinks, sinks_nodup s⟩
  · simp [handedOut, seed]
  · simp [seed]

namespace Serves

variable (h : Serves s requests given w)
include h

theorem next {f : FunctionId} (hnext : w.next? = some (f, w')) :
    Serves s (requests ++ [.next]) (given ++ [f]) w' := by
  obtain ⟨hready, hpending, -, hle, hdone, -⟩ := handedOut_next h.nodup hnext
  refine ⟨?_, by rwa [hready], fun g => ?_, ?_, by rw [hready]; exact h.nodup⟩
  · rw [hdone, h.given_eq]
  · simp [hpending, h.pending g]
  · rw [hready, hpending]
    exact h.mem_ready

theorem resolve (g : FunctionId) :
    Serves s (requests ++ [.resolve g]) given (w.resolve g).2 := by
  have hr := resolves_resolve w g
  refine ⟨?_, ?_, fun f => ?_, hr.mem_ready h.mem_ready, hr.nodup h.mem_ready h.nodup⟩
  · rw [hr.handedOut_eq h.processed_le, h.given_eq]
  · rw [hr.processed]
    exact h.processed_le.trans hr.size_le
  · have hcount : [Request.resolve g].count (.resolve f) = [g].count f := by
      simp [List.count_cons]
    rw [hr.pending, h.pending, Option.map_map, List.count_append, hcount]
    congr 1
    funext n
    simp only [Function.comp_apply]
    omega

theorem answer (request : Request) :
    Serves s (requests ++ [request]) (answer (given, w) request).1
      (answer (given, w) request).2 := by
  rcases request with _ | g
  · rcases hnext : w.next? with _ | ⟨f, w'⟩
    · simp only [Worklist.answer, hnext]
      exact ⟨h.given_eq, h.processed_le, fun f => by simp [h.pending f], h.mem_ready, h.nodup⟩
    · simp only [Worklist.answer, hnext]
      exact h.next hnext
  · exact h.resolve g

theorem foldl (later : List Request) :
    Serves s (requests ++ later) (later.foldl Worklist.answer (given, w)).1
      (later.foldl Worklist.answer (given, w)).2 := by
  induction later generalizing requests given w with
  | nil => simpa using h
  | cons request later ih => simpa using ih (h.answer request)

theorem given_append_queue : given ++ w.queue = w.ready.toList := by
  rw [h.given_eq, handedOut, queue, List.take_append_drop]

theorem length_given : given.length = w.processed := by
  rw [h.given_eq, handedOut, List.length_take, Array.length_toList]
  exact Nat.min_eq_left h.processed_le

theorem total_eq : w.total = s.functionCount :=
  Worklist.total_eq fun f => by rw [h.pending f, Option.isSome_map]

/-- Every function is handed out, waits for it or is unresolved. -/
theorem accounts : w.processed + w.queue.length + w.unresolved.length = w.total := by
  have hready := ready_add_unresolved h.nodup h.mem_ready
  rw [← Array.length_toList, ← h.given_append_queue, List.length_append, h.length_given] at hready
  exact hready

theorem isComplete_iff : w.isComplete ↔ w.queue = [] ∧ w.unresolved = [] := by
  have haccounts := h.accounts
  rw [isComplete, beq_iff_eq, ← List.length_eq_zero_iff, ← List.length_eq_zero_iff]
  omega

end Serves

theorem next?_eq_head? (w : Worklist) : w.next?.map (·.1) = w.queue.head? := by
  rw [next?, queue, Option.map_map, List.head?_drop, Array.getElem?_toList]
  exact Option.map_id'

theorem isEmpty_iff : w.isEmpty ↔ w.queue = [] := by
  simp [isEmpty, queue]

/-- A call is resolved if the function has one left, and the function is ready with its last. -/
theorem resolve_cases (w : Worklist) (f : FunctionId) :
    (w.pending? f = none ∨ w.pending? f = some 0) ∧ w.resolve f = (false, w)
      ∨ ∃ n, w.pending? f = some (n + 1) ∧ (w.resolve f).2.pending? f = some n
        ∧ (w.resolve f).1 = decide (n = 0) := by
  unfold pending? Worklist.resolve
  rcases w.pending[f]? with _ | _ | _ | n <;> simp

theorem serves_serve (s : Snapshot) (requests : List Request) :
    Serves s requests ((seed s).serve requests).1 ((seed s).serve requests).2 := by
  simpa [serve] using (serves_seed s).foldl requests

/-- Whatever is asked of the worklist of a snapshot, its functions are handed out at most once, and
each is handed out, waits for it or is unresolved. The first two have no call left. A call is
resolved for each request that finds one left, and the others change nothing. The worklist is
complete once no function waits and none is unresolved. -/
theorem serve_accounts (s : Snapshot) (requests : List Request) :
    let given := ((seed s).serve requests).1
    let w := ((seed s).serve requests).2
    w.processed + w.queue.length + w.unresolved.length = w.total
      ∧ w.total = s.functionCount
      ∧ w.processed = given.length
      ∧ (given ++ w.queue).Nodup
      ∧ (∀ f, f ∈ w.queue ∨ f ∈ given ↔ w.pending? f = some 0)
      ∧ (∀ f, w.pending? f = (s.pending? f).map (· - requests.count (.resolve f)))
      ∧ (∀ f, (w.pending? f = none ∨ w.pending? f = some 0) ∧ w.resolve f = (false, w)
        ∨ ∃ n, w.pending? f = some (n + 1) ∧ (w.resolve f).2.pending? f = some n
          ∧ (w.resolve f).1 = decide (n = 0))
      ∧ w.next?.map (·.1) = w.queue.head?
      ∧ (w.isEmpty ↔ w.queue = [])
      ∧ (w.isComplete ↔ w.queue = [] ∧ w.unresolved = []) := by
  have h := serves_serve s requests
  refine ⟨h.accounts, h.total_eq, h.length_given.symm, ?_, fun f => ?_, h.pending,
    resolve_cases _, next?_eq_head? _, isEmpty_iff, h.isComplete_iff⟩
  · rw [h.given_append_queue]
    exact h.nodup
  · rw [or_comm, ← List.mem_append, h.given_append_queue]
    exact h.mem_ready f

end Worklist

end PhasedInlining
