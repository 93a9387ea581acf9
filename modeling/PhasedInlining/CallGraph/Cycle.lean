import PhasedInlining.CallGraph.Snapshot

/-!
# Call cycles

The functions of a list that lie on call cycles of the list fall into components, in each of which
every function reaches every other. One search along the calls finds them, callees first.

A search numbers functions as it finds them and keeps them on a stack until it knows their
component. Of each it notes the least number on the stack that it knows to be within reach. The
function of a component that was found first is the one for which this is its own number once all
its callees have been looked at, and then the component is what lies on the stack down to it.

Nothing is returned where the number of a function is looked up that has none, where a component has
no member, or where the search is not over after the steps it is given. None of this happens.
-/

namespace PhasedInlining

namespace Snapshot

/-- A function that a search is not done with, and the place of the callee to be looked at next. -/
structure Frame where
  function : FunctionId
  next : Nat := 0

/-- The state of a search. -/
structure Search where
  /-- The number of each function found. -/
  index : Std.TreeMap FunctionId Nat := ∅
  /-- For each function found the least number noted for it. -/
  low : Std.TreeMap FunctionId Nat := ∅
  /-- The functions on the stack. -/
  onStack : Std.TreeSet FunctionId := ∅
  /-- The functions found whose component is not known, the last found first. -/
  stack : List FunctionId := []
  /-- The number of the next function. -/
  count : Nat := 0
  /-- The components found, the last first. -/
  components : List (List FunctionId) := []

namespace Search

/-- Numbers a function and puts it on the stack. -/
def discover (t : Search) (f : FunctionId) : Search :=
  { t with
    index := t.index.insert f t.count
    low := t.low.insert f t.count
    onStack := t.onStack.insert f
    stack := f :: t.stack
    count := t.count + 1 }

/-- Notes that `f` reaches the function with number `n`. -/
def lower (t : Search) (f : FunctionId) (n : Nat) : Search :=
  { t with low := t.low.modify f (min · n) }

/-- Takes the stack down to `f` for a component. -/
def close (t : Search) (f : FunctionId) : Search :=
  let rest := t.stack.dropWhile (· ≠ f)
  let component := t.stack.takeWhile (· ≠ f) ++ rest.take 1
  { t with
    onStack := component.foldl (fun fs g => fs.erase g) t.onStack
    stack := rest.drop 1
    components := component :: t.components }

/-- Is done with a function. What it reaches its caller reaches too. -/
def leave (t : Search) (f : FunctionId) (frames : List Frame) : Option Search := do
  let low ← t.low[f]?
  let t := frames.head?.elim t fun parent => t.lower parent.function low
  let n ← t.index[f]?
  return if low = n then t.close f else t

/-- Looks at the next callee of the function of `frame`, or is done with the function. -/
def step (succ : FunctionId → List FunctionId) (t : Search) (frame : Frame)
    (frames : List Frame) : Option (Search × List Frame) :=
  match (succ frame.function)[frame.next]? with
  | some g =>
    let frames := { frame with next := frame.next + 1 } :: frames
    if !t.index.contains g then some (t.discover g, { function := g } :: frames)
    else if t.onStack.contains g then
      t.index[g]?.map fun n => (t.lower frame.function n, frames)
    else some (t, frames)
  | none => (t.leave frame.function frames).map (·, frames)

/-- Runs up to `fuel` steps, until no frame is left. -/
def run (succ : FunctionId → List FunctionId) : Nat → Search → List Frame → Option Search
  | _, t, [] => some t
  | 0, _, _ :: _ => none
  | fuel + 1, t, frame :: frames =>
    (t.step succ frame frames).bind fun (t, frames) => run succ fuel t frames

/-- Finds `root` and what it reaches, unless it was found before. -/
def connect (succ : FunctionId → List FunctionId) (fuel : Nat) (t : Search) (root : FunctionId) :
    Option Search :=
  if t.index.contains root then some t
  else run succ fuel (t.discover root) [{ function := root }]

/-- The components of `members`, callees first. -/
def components? (succ : FunctionId → List FunctionId) (members : List FunctionId) :
    Option (List (List FunctionId)) :=
  let fuel := members.foldl (fun n f => n + ((succ f).length + 1)) 0
  (members.foldlM (connect succ fuel) {}).map (·.components.reverse)

end Search

variable (s : Snapshot)

/-- For each member the members that it calls. -/
def callsAmong (members : Std.TreeSet FunctionId) : Std.TreeMap FunctionId (List FunctionId) :=
  members.toList.foldl
    (fun calls f => calls.insert f ((s.calleesOf f).filter members.contains)) ∅

/-- Whether a component is a cycle: several functions, or one that calls itself. -/
def isCycle (succ : FunctionId → List FunctionId) (component : List FunctionId) : Bool :=
  1 < component.length || component.head?.any fun f => (succ f).contains f

/-- The call cycles among the functions of a list, each by its handles. -/
def cycles? (fs : List FunctionId) : Option (List (List FunctionId)) :=
  let members := Std.TreeSet.ofList fs
  let calls := s.callsAmong members
  let succ := fun f => calls.getD f []
  (Search.components? succ members.toList).bind fun components =>
    if components.any List.isEmpty then none
    else some ((components.filter (isCycle succ)).map fun c => (Std.TreeSet.ofList c).toList)

/-- What `cycles?` finds. -/
def cycles (fs : List FunctionId) : List (List FunctionId) := (s.cycles? fs).getD []

end Snapshot

end PhasedInlining
