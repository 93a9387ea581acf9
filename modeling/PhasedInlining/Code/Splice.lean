import PhasedInlining.Code.Edit

/-!
# Splicing

`Module.splice` replaces one call by a copy of its callee's body. Returns of the copy are dropped,
because they would end the caller, and its calls get handles of their own, so that the callee
keeps its body and its handles. A splice that is refused leaves no trace in the module.
-/

namespace PhasedInlining

/-- Why a call is not replaced. -/
inductive Refusal where
  | siteGone
  | indirect
  | recursive
  | calleeGone
  | noBody
  | noInline
  | exhausted
deriving DecidableEq

def Refusal.message : Refusal → String
  | siteGone => "call site no longer exists"
  | indirect => "indirect call"
  | recursive => "recursive call site"
  | calleeGone => "callee no longer exists"
  | noBody => "callee has no body"
  | noInline => "callee is marked noinline"
  | exhausted => "call-site handles exhausted"

/-- The body with the first call labelled `s` replaced by `is`. -/
def Body.replaceCall (s : CallSiteId) (is : Body) (body : Body) : Body :=
  let other := fun i : Instr CallSiteId => i.site? != some s
  body.takeWhile other ++ is ++ (body.dropWhile other).tail

namespace Module

/-- The callee of a call that can be replaced, with the caller. -/
def spliceable (m : Module) (s : CallSiteId) : Except Refusal (FunctionId × Function) :=
  match m.callAt? s with
  | none => .error .siteGone
  | some (_, .indirect) => .error .indirect
  | some (caller, .direct callee) =>
    if callee = caller then .error .recursive
    else match m.function? callee with
      | none => .error .calleeGone
      | some g =>
        if !g.hasBody then .error .noBody
        else if g.flags.noInline then .error .noInline
        else if !m.hasRoomFor (Body.callCount g.instrs) then .error .exhausted
        else .ok (caller, g)

/-- Replaces a call in `caller` by the body of `callee`. -/
def spliceBody (m : Module) (s : CallSiteId) (caller : FunctionId) (callee : Function) : Module :=
  let copy := Body.withoutReturns callee.instrs
  let body := Body.replaceCall s (Body.issue m.nextSite copy) (m.instrsOf caller)
  let m := (m.issueSites caller (Body.callCount copy)).setBody caller body
  { m with owners := m.owners.erase s }

/-- Replaces a call by its callee's body, or refuses to and changes nothing. -/
def splice (m : Module) (s : CallSiteId) : Option Refusal × Module :=
  match m.spliceable s with
  | .error refusal => (some refusal, m)
  | .ok (caller, callee) => (none, m.spliceBody s caller callee)

end Module

end PhasedInlining
