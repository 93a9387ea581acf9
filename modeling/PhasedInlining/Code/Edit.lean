import PhasedInlining.Code.Module
import PhasedInlining.Fault

/-!
# Edits

Adding a function, appending to a body, and removing a function. Calls that enter a module get
handles of that module, whatever labels they had before.
-/

namespace PhasedInlining

namespace Module

/-- Whether `count` more handles of call instructions can be issued. -/
def hasRoomFor (m : Module) (count : Nat) : Bool := m.nextSite + count ≤ maxNumber

/-- Issues `count` handles to calls in the body of `owner`. -/
def issueSites (m : Module) (owner : FunctionId) (count : Nat) : Module :=
  { m with
    owners := (List.range' m.nextSite count).foldl (fun o n => o.insert ⟨n⟩ owner) m.owners
    nextSite := m.nextSite + count }

/-- Changes the body of a function. -/
def setBody (m : Module) (f : FunctionId) (body : Body) : Module :=
  { m with slots := m.slots.modify f.index (Option.map fun g => { g with body := some body }) }

/-- Why a function cannot be added: its name is taken, or no handle is left. -/
def addFault? (m : Module) (f : Function) : Option Fault :=
  if m.byName.contains f.name then some (.duplicateFunction f.name)
  else if maxNumber < m.slots.size then some (.identifiersExhausted "function")
  else if !m.hasRoomFor (Body.callCount f.instrs) then some (.identifiersExhausted "call-site")
  else none

/-- Puts a function into a new slot. -/
def push (m : Module) (f : Function) : FunctionId × Module :=
  let id : FunctionId := ⟨m.slots.size⟩
  let g := { f with id, body := f.body.map (Body.issue m.nextSite) }
  let m := m.issueSites id (Body.callCount f.instrs)
  (id, { m with slots := m.slots.push (some g), byName := m.byName.insert f.name id })

/-- Adds a function under a new handle. -/
def add (m : Module) (f : Function) : Except Fault FunctionId × Module :=
  match m.addFault? f with
  | some fault => (.error fault, m)
  | none =>
    let (id, m) := m.push f
    (.ok id, m)

/-- Appends to a body, and makes a declaration a definition. A call for which no handle is left
ends the appending, and what stood before it stays. -/
def append {α : Type} (m : Module) (f : FunctionId) (is : List (Instr α)) :
    Except Fault Unit × Module :=
  if m.contains f then
    let fitting := Body.takeCalls (maxNumber - m.nextSite) is
    let body := m.instrsOf f ++ Body.issue m.nextSite fitting
    let m := (m.issueSites f (Body.callCount fitting)).setBody f body
    if fitting.length < is.length then (.error (.identifiersExhausted "call-site"), m)
    else (.ok (), m)
  else (.error (.unknownFunction f), m)

/-- Removes a function and its calls. Calls to it and references to it stay. -/
def remove (m : Module) (f : FunctionId) : Option Function × Module :=
  match m.function? f with
  | none => (none, m)
  | some g =>
    (some g, { m with
      slots := m.slots.setIfInBounds f.index none
      byName := if m.byName[g.name]? = some f then m.byName.erase g.name else m.byName
      owners := g.sites.foldl (fun o s => o.erase s) m.owners })

end Module

end PhasedInlining
