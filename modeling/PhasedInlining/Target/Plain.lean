import PhasedInlining.Code.Splice
import PhasedInlining.Target

/-!
# Modules as targets

A module shows itself as it is: its calls in the order of functions and bodies, and splicing and
removal for changes.
-/

namespace PhasedInlining

namespace Module

def callEdges (m : Module) : List CallEdge :=
  m.functions.flatMap fun f => f.instrs.filterMap fun
    | .call site target => some ⟨f.id, target, site⟩
    | _ => none

instance : Target Module where
  functionIds := functionIds
  hasBody := hasBody
  name? m f := (m.function? f).map (·.name)
  callEdges := callEdges
  currentCallee? := currentCallee?
  phaseTag? m f := (m.function? f).bind (·.phaseTag?)
  isProtected m f := (m.function? f).any (·.isProtected)
  usesIn := usesIn
  inline m s :=
    match m.splice s with
    | (none, m) => (.done, m)
    | (some refusal, m) => (.refused refusal.message, m)
  erase m f :=
    let (removed?, m) := m.remove f
    (removed?.isSome, m)

end Module

end PhasedInlining
