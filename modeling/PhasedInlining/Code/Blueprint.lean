import PhasedInlining.Code.Edit

/-!
# Blueprints

Modules built from descriptions. All functions are added before any body is written, so bodies can
call functions in any order.
-/

namespace PhasedInlining

/-- What a function is to have besides its name and its body. -/
structure Profile where
  phase? : Option Nat := none
  /-- Attributes in the order in which they are set, after the phase. -/
  attributes : List (String × String) := []
  flags : Flags := {}
  isDefined : Bool := false

def Profile.applyTo (t : Profile) (f : Function) : Function :=
  let f := t.phase?.elim f f.withPhase
  let f := t.attributes.foldl (fun f (key, value) => f.withAttribute key value) f
  let f := f.withFlags t.flags
  if t.isDefined then f.defined else f

namespace Module

/-- Does one edit after the other, up to the first that fails. What was done before it stays. -/
def each {α β : Type} (edit : Module → α → Except Fault β × Module) (m : Module) (as : List α) :
    Except Fault (Array β) × Module :=
  as.foldl (fun done a =>
    match done with
    | (.error fault, m) => (.error fault, m)
    | (.ok bs, m) =>
      let (b, m) := edit m a
      (b.map bs.push, m)) (.ok #[], m)

/-- Adds functions, then appends to the bodies of those that `drafts` gives a draft for. -/
def addWithBodies (m : Module) (fs : List Function)
    (drafts : Array FunctionId → List (FunctionId × Draft)) :
    Except Fault (List FunctionId) × Module :=
  match m.each add fs with
  | (.error fault, m) => (.error fault, m)
  | (.ok ids, m) =>
    let (done, m) := m.each (fun m (f, d) => m.append f d) (drafts ids)
    (done.map fun _ => ids.toList, m)

/-- A new module with the functions described, those with a draft also defined by it. -/
def build (name : String) (parts : List (Function × Option Draft)) :
    Except Fault (List FunctionId) × Module :=
  ({ name } : Module).addWithBodies (parts.map (·.1)) fun ids =>
    (ids.toList.zip parts).filterMap fun (id, _, draft?) => draft?.map (id, ·)

end Module

/-- A family of functions with numbered names. Each works and then calls the members that stand at
given distances from it. -/
structure Family where
  size : Nat
  stem : String
  profile : Profile := {}
  offsets : List Int := []
  /-- Distances go round at the ends; otherwise a call past an end is left out. -/
  isRing : Bool := false

namespace Family

/-- The member at distance `d` from member `i`. -/
def neighbour? (g : Family) (i : Nat) (d : Int) : Option Nat :=
  let j := (i : Int) + d
  if g.isRing then some (j % g.size).toNat
  else if 0 ≤ j ∧ j < g.size then some j.toNat
  else none

def member (g : Family) (i : Nat) : Function := g.profile.applyTo { name := g.stem ++ toString i }

/-- The body of member `i`, where `ids` has the handles of all members. -/
def draft (g : Family) (ids : Array FunctionId) (i : Nat) : Draft :=
  let callees := (g.offsets.filterMap (g.neighbour? i)).filterMap (ids[·]?)
  .op ("work " ++ toString i) :: callees.map (fun f => .call () (.direct f)) ++ [.ret]

end Family

/-- Adds a family to a module. -/
def Module.addFamily (m : Module) (g : Family) : Except Fault (List FunctionId) × Module :=
  m.addWithBodies ((List.range g.size).map g.member) fun ids =>
    ids.toList.zipIdx.map fun (id, i) => (id, g.draft ids i)

end PhasedInlining
