import PhasedInlining.Lowering.CallCounts
import PhasedInlining.Lowering.Inlining
import PhasedInlining.Lowering.Options

/-!
# Inlining by scanning again

Each scan goes through all calls and inlines those to functions of the phase. A body copied may
bring further calls with it, which the next scan finds, and the last scan is the one that changes
nothing.

Recursion would keep this going for ever. A call is therefore left alone if its callee calls itself
or calls the caller. Longer cycles are not recognised; the number of scans is capped instead.
-/

namespace PhasedInlining

variable {σ : Type} [Target σ]

open CallSource Target

/-- A run in the middle of a scan. -/
structure Scan (σ : Type) extends Inlining σ where
  /-- Calls that are never tried again. -/
  refused : Std.TreeSet CallSiteId := ∅
  /-- The direct calls of the target as it is now. -/
  calls : CallCounts := {}
  /-- Whether this scan has inlined a call. -/
  changed : Bool := false

namespace Scan

/-- Changes the target, and hands on the answer to the change. -/
def change {α : Type} (s : Scan σ) (f : σ → α × σ) : α × Scan σ :=
  let { toInlining, refused, calls, changed } := s
  let (answer, toInlining) := toInlining.change f
  (answer, { toInlining, refused, calls, changed })

/-- Inlines a call of `callee`, unless that would unfold recursion. -/
def attempt (phase number : Nat) (s : Scan σ) (caller callee : FunctionId) (site : CallSiteId) :
    Scan σ :=
  if s.calls.contains callee callee || s.calls.contains callee caller then
    let message := "not inlining recursive call from " ++ displayName s.target caller ++ " to "
      ++ displayName s.target callee
    { s with
      toRun := s.writeFor phase .debug message
      refused := s.refused.insert site }
  else
    match s.change (inline · site) with
    | (.done, s) =>
      let message := "scan " ++ toString number ++ ": inlined " ++ displayName s.target callee
        ++ " into " ++ displayName s.target caller
      { s with
        toRun := (s.writeFor phase .debug message).record
          { kind := .functionInlined
            function? := some callee
            caller? := some caller
            phase? := some phase
            pass? := some rescanPass }
        inlined := s.inlined + 1
        calls := s.calls.splice caller callee
        changed := true }
    | (.refused reason, s) =>
      { s with
        toInlining := s.refuse rescanPass phase caller callee reason
        refused := s.refused.insert site }

/-- Attends to one of the calls that were there when the scan began. -/
def visit (phase number : Nat) (s : Scan σ) (e : CallEdge) : Except (Halt σ) (Scan σ) :=
  match e.target with
  | .indirect => .ok s
  | .direct callee =>
    if s.refused.contains e.site || !hasBody s.target callee then .ok s
    else (s.check (isMarked phase s.target callee)).map fun marked =>
      if marked && currentCallee? s.target e.site == some callee then
        s.attempt phase number e.caller callee e.site
      else s

/-- Goes through all calls once. -/
def once (phase number : Nat) (s : Scan σ) : Except (Halt σ) (Scan σ) :=
  let edges := callEdges s.target
  edges.foldlM (visit phase number) { s with calls := .ofEdges edges, changed := false }

/-- Scans until nothing changes, `left` times at most; scans are numbered up to `cap`. -/
def repeated (phase cap : Nat) : Nat → Scan σ → Ending σ InlineReport
  | 0, s =>
    let message := "still inlining after " ++ toString cap ++ " scans, giving up"
    .error { s.writeFor phase .warn message with fault := .notConverged phase cap }
  | left + 1, s =>
    match s.once phase (cap - left) with
    | .error halt => .error halt
    | .ok s =>
      if s.changed then repeated phase cap left s
      else .ok (s.toRun, s.report (Snapshot.ofSource s.target).drain)

end Scan

/-- Inlines the calls to functions of a phase by scanning up to `cap` times. -/
def rescan (phase cap : Nat) (r : Run σ) : Ending σ InlineReport :=
  Scan.repeated phase cap cap { r with }

end PhasedInlining
