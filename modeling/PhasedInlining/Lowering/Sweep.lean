import PhasedInlining.Lowering.Options
import PhasedInlining.Lowering.Run

/-!
# Sweeping

A function of the phase is removed if it is not protected and nothing uses it, its own body
included. With it go the uses in its body, which may leave further functions without a use. Uses
are counted once, at the start, and counted down from then on.
-/

namespace PhasedInlining

variable {σ : Type} [Target σ]

open CallSource Target

/-- A function that was removed, under the name it had. -/
structure RemovedFunction where
  id : FunctionId
  name : String
deriving DecidableEq

/-- A run in the middle of sweeping. -/
structure Sweep (σ : Type) extends Run σ where
  /-- How often each function is used; functions without a use are not listed. -/
  uses : Std.TreeMap FunctionId Nat := ∅
  /-- The functions found to be without a use, in the order in which they were. -/
  unused : Array FunctionId := #[]
  removed : Array RemovedFunction := #[]

namespace Sweep

def addUse (uses : Std.TreeMap FunctionId Nat) (f : FunctionId) : Std.TreeMap FunctionId Nat :=
  uses.insert f (uses.getD f 0 + 1)

/-- The functions that a target lists, and the uses in their bodies. -/
def start (r : Run σ) : Sweep σ :=
  let fs := functionIds r.target
  let uses := fs.foldl (fun uses f => (usesIn r.target f).foldl addUse uses) ∅
  { r with uses, unused := (fs.filter (!uses.contains ·)).toArray }

/-- Changes the target, and hands on the answer to the change. -/
def change {α : Type} (s : Sweep σ) (f : σ → α × σ) : α × Sweep σ :=
  let { toRun, uses, unused, removed } := s
  let (answer, toRun) := toRun.change f
  (answer, { toRun, uses, unused, removed })

/-- Counts one use less. -/
def release (s : Sweep σ) (f : FunctionId) : Sweep σ :=
  match s.uses[f]? with
  | none => s
  | some n =>
    if n ≤ 1 then { s with uses := s.uses.erase f, unused := s.unused.push f }
    else { s with uses := s.uses.insert f (n - 1) }

/-- Removes a function, if the target lets it go, and releases what its body used. -/
def remove (phase : Nat) (s : Sweep σ) (f : FunctionId) : Sweep σ :=
  let released := usesIn s.target f
  let name := displayName s.target f
  match s.change (erase · f) with
  | (false, s) => s
  | (true, s) =>
    let r := (s.writeFor phase .debug ("removed dead phase function " ++ name)).record
      { kind := .functionRemoved
        function? := some f
        phase? := some phase
        pass? := some sweepPass
        message := "removed " ++ name }
    released.foldl release { s with toRun := r, removed := s.removed.push ⟨f, name⟩ }

/-- Removes a function, if lowering the phase is to remove it. -/
def visit (phase : Nat) (s : Sweep σ) (f : FunctionId) : Except (Halt σ) (Sweep σ) :=
  (s.check (isRemovable phase s.target f)).map fun removable =>
    if removable then s.remove phase f else s

/-- Visits up to `fuel` unused functions, from place `i` on. -/
def visitFrom (phase : Nat) : Nat → Nat → Sweep σ → Except (Halt σ) (Sweep σ)
  | 0, _, s => .ok s
  | fuel + 1, i, s =>
    match s.unused[i]? with
    | none => .ok s
    | some f =>
      match s.visit phase f with
      | .error halt => .error halt
      | .ok s => visitFrom phase fuel (i + 1) s

end Sweep

/-- Removes the functions of a phase that nothing uses. A function becomes unused at most once
after the start, so the functions unused then and those used then bound the number of visits. -/
def sweep (phase : Nat) (r : Run σ) : Ending σ (List RemovedFunction) :=
  let s := Sweep.start r
  (Sweep.visitFrom phase (s.unused.size + s.uses.size) 0 s).map fun s => (s.toRun, s.removed.toList)

end PhasedInlining
