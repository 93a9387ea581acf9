import PhasedInlining.Code.Instr
import PhasedInlining.Phase

/-!
# What a pass sees

Passes do not know the module type. They see functions and calls through `CallSource` and change
them through `Target`. Neither promises anything: a target may hide functions, report calls that
do not exist, refuse to inline, or say that it has done what it has not.
-/

namespace PhasedInlining

/-- A call, as a call source reports it. -/
structure CallEdge where
  caller : FunctionId
  target : CallTarget
  site : CallSiteId
deriving DecidableEq

/-- Functions and the calls between them. -/
class CallSource (σ : Type) where
  functionIds : σ → List FunctionId
  hasBody : σ → FunctionId → Bool
  name? : σ → FunctionId → Option String
  callEdges : σ → List CallEdge
  /-- The function that a call goes to now, if the call is direct and still exists. -/
  currentCallee? : σ → CallSiteId → Option FunctionId

/-- A target's answer to being asked to inline a call. -/
inductive InlineAnswer where
  | done
  | refused (reason : String)
deriving DecidableEq

def InlineAnswer.text : InlineAnswer → String
  | done => "success"
  | refused reason => "failure: " ++ reason

/-- Something that a pass can change. -/
class Target (σ : Type) extends CallSource σ where
  phaseTag? : σ → FunctionId → Option String
  isProtected : σ → FunctionId → Bool
  /-- The functions that a body calls or refers to, one entry for each use. -/
  usesIn : σ → FunctionId → List FunctionId
  inline : σ → CallSiteId → InlineAnswer × σ
  /-- Removes a function and says whether it did. -/
  erase : σ → FunctionId → Bool × σ

section

variable {σ : Type} [Target σ]

open CallSource Target

/-- The name of a function for people, its handle if it has none. -/
def displayName (t : σ) (f : FunctionId) : String := (name? t f).getD f.text

/-- The phase that a function is marked for. -/
def phaseOf (t : σ) (f : FunctionId) : Except Fault (Option Nat) :=
  match phaseTag? t f with
  | none => .ok none
  | some tag =>
    match Phase.parse tag with
    | .ok phase => .ok (some phase)
    | .error _ => .error (.malformed (.functionTag f tag))

/-- Whether a function is marked for `phase`. -/
def isMarked (phase : Nat) (t : σ) (f : FunctionId) : Except Fault Bool :=
  (phaseOf t f).map (· == some phase)

/-- Whether lowering `phase` removes a function once nothing uses it. -/
def isRemovable (phase : Nat) (t : σ) (f : FunctionId) : Except Fault Bool :=
  (isMarked phase t f).map (· && !isProtected t f)

end

end PhasedInlining
