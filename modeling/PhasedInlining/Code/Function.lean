import PhasedInlining.Code.Instr

/-!
# Functions

A function is a definition with a body or a declaration without one. Its attributes are free text
under free names, of which lowering reads one, `Function.phaseKey`.
-/

namespace PhasedInlining

/-- What a pass must respect: a protected function is never removed, the body of one marked
no-inline is never copied into a caller. -/
structure Flags where
  isProtected : Bool := false
  noInline : Bool := false
deriving DecidableEq

namespace Flags

/-- Protection is bit 0 and no-inline bit 1; other bits mean nothing. -/
def ofBits (n : Nat) : Flags := ⟨n.testBit 0, n.testBit 1⟩

def bits (g : Flags) : Nat := g.isProtected.toNat + 2 * g.noInline.toNat

/-- The flags set in either. -/
def union (g h : Flags) : Flags := ⟨g.isProtected || h.isProtected, g.noInline || h.noInline⟩

end Flags

/-- A function. Its handle has a meaning only inside the module that owns it. -/
structure Function where
  id : FunctionId := ⟨0⟩
  name : String
  body : Option Body := none
  attributes : List (String × String) := []
  flags : Flags := {}
deriving DecidableEq

namespace Function

/-- The attribute that says which phase a function belongs to. -/
def phaseKey : String := "lower-phase"

def attribute? (f : Function) (key : String) : Option String := f.attributes.lookup key

/-- Sets an attribute; the value it had before is lost. -/
def withAttribute (f : Function) (key value : String) : Function :=
  { f with attributes := (key, value) :: f.attributes.filter (·.1 != key) }

/-- Marks the function for removal by lowering `phase`. -/
def withPhase (f : Function) (phase : Nat) : Function := f.withAttribute phaseKey (toString phase)

def withFlags (f : Function) (flags : Flags) : Function := { f with flags := f.flags.union flags }

def withProtection (f : Function) : Function := f.withFlags { isProtected := true }

/-- Gives a declaration an empty body. -/
def defined (f : Function) : Function := { f with body := some (f.body.getD []) }

def phaseTag? (f : Function) : Option String := f.attribute? phaseKey

def hasBody (f : Function) : Bool := f.body.isSome

/-- The instructions of the body; none for a declaration. -/
def instrs (f : Function) : Body := f.body.getD []

def isProtected (f : Function) : Bool := f.flags.isProtected

/-- A body that may be copied into callers. -/
def isInlinable (f : Function) : Bool := f.hasBody && !f.flags.noInline

def callees (f : Function) : List FunctionId := Body.callees f.instrs

def uses (f : Function) : List FunctionId := Body.uses f.instrs

def sites (f : Function) : List CallSiteId := Body.sites f.instrs

/-- A definition is printed with its handle and its instructions, a declaration by its name, and
both with their phase if they are marked for one. -/
def text (f : Function) : String :=
  let phase := match f.phaseTag? with
    | some tag => " [phase " ++ tag ++ "]"
    | none => ""
  match f.body with
  | none => "declare " ++ f.name ++ phase ++ "\n"
  | some body =>
    "define " ++ f.name ++ " (" ++ f.id.text ++ ")" ++ phase ++ " \x7b\n"
      ++ String.join (body.map fun i => "    " ++ i.text ++ "\n") ++ "\x7d\n"

@[simp]
theorem attribute?_withAttribute_self (f : Function) (key value : String) :
    (f.withAttribute key value).attribute? key = some value := by
  simp [attribute?, withAttribute]

@[simp]
theorem phaseTag?_withPhase (f : Function) (phase : Nat) :
    (f.withPhase phase).phaseTag? = some (toString phase) :=
  attribute?_withAttribute_self f _ _

end Function

end PhasedInlining
