import PhasedInlining.Code.Function

/-!
# Modules

A module owns functions in numbered slots. A slot is filled once and may be emptied once, so a
function's handle never comes to mean another function. Beside the slots stand two look-up tables:
the functions by name, and for every call instruction the function whose body holds it.

`Module.WellFormed` says that the tables agree with the slots; every operation keeps it.
-/

namespace PhasedInlining

structure Module where
  name : String
  slots : Array (Option Function) := #[]
  /-- The functions by their names. -/
  byName : Std.TreeMap String FunctionId := ∅
  /-- The function whose body holds the call with a handle. -/
  owners : Std.TreeMap CallSiteId FunctionId := ∅
  /-- The number of the next handle; greater ones were never issued. -/
  nextSite : Nat := 0

namespace Module

/-- The function of a handle, unless it was removed or never existed. -/
def function? (m : Module) (f : FunctionId) : Option Function := m.slots[f.index]?.join

def contains (m : Module) (f : FunctionId) : Bool := (m.function? f).isSome

def functionNamed? (m : Module) (name : String) : Option Function :=
  m.byName[name]?.bind m.function?

/-- The functions in the order in which they were added. -/
def functions (m : Module) : List Function := m.slots.toList.filterMap id

def functionIds (m : Module) : List FunctionId := m.functions.map (·.id)

/-- The number of functions. -/
def size (m : Module) : Nat := m.functions.length

def isEmpty (m : Module) : Bool := m.size == 0

/-- The number of instructions in all bodies. -/
def instrCount (m : Module) : Nat := m.functions.foldl (fun n f => n + f.instrs.length) 0

/-- The instructions of a function; none for a declaration or a function that is not there. -/
def instrsOf (m : Module) (f : FunctionId) : Body := ((m.function? f).map (·.instrs)).getD []

def hasBody (m : Module) (f : FunctionId) : Bool := (m.function? f).any (·.hasBody)

/-- The handles of the calls in a function, in order. -/
def sitesIn (m : Module) (f : FunctionId) : List CallSiteId := Body.sites (m.instrsOf f)

/-- The functions that a function calls or refers to, one entry for each use. -/
def usesIn (m : Module) (f : FunctionId) : List FunctionId := Body.uses (m.instrsOf f)

/-- The functions that call or refer to a function, each once. -/
def usersOf (m : Module) (f : FunctionId) : List FunctionId :=
  (m.functions.filter (·.uses.contains f)).map (·.id)

/-- The function that holds a call, and what the call goes to. -/
def callAt? (m : Module) (s : CallSiteId) : Option (FunctionId × CallTarget) := do
  let caller ← m.owners[s]?
  (m.instrsOf caller).findSome? fun
    | .call t target => if t = s then some (caller, target) else none
    | _ => none

/-- The function that a call goes to, if the call still exists and is direct. -/
def currentCallee? (m : Module) (s : CallSiteId) : Option FunctionId :=
  (m.callAt? s).bind fun call => call.2.callee?

/-- All functions, under a line with the module's name. -/
def text (m : Module) : String :=
  "module " ++ m.name ++ "\n" ++ String.join (m.functions.map (·.text))

/-- Slots hold functions that know their slot, the names are those of the functions and tell them
apart, and every call has a handle of its own that leads to its function. -/
structure WellFormed (m : Module) : Prop where
  slot_id : ∀ (i : Nat) (f : Function), m.slots[i]? = some (some f) → f.id = ⟨i⟩
  byName_iff : ∀ (name : String) (f : FunctionId),
    m.byName[name]? = some f ↔ ∃ g, m.function? f = some g ∧ g.name = name
  owner_iff : ∀ (s : CallSiteId) (f : FunctionId), m.owners[s]? = some f ↔ s ∈ m.sitesIn f
  site_lt : ∀ (f : FunctionId), ∀ s ∈ m.sitesIn f, s.value < m.nextSite
  sites_nodup : ∀ f : FunctionId, (m.sitesIn f).Nodup

end Module

end PhasedInlining
