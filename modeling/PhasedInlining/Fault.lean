import PhasedInlining.Code.Handle

/-!
# Faults

What can go wrong, by cause. The wording of each cause stands in one place.
-/

namespace PhasedInlining

/-- Input that does not follow its grammar. -/
inductive Malformation where
  /-- A phase tag that is empty or holds something other than decimal digits. -/
  | notDecimal (tag : String)
  /-- A phase tag whose value does not fit in 32 bits. -/
  | outOfRange (tag : String)
  /-- A function whose phase tag does not name a phase. -/
  | functionTag (function : FunctionId) (tag : String)
  /-- A complaint about a line of a file. -/
  | located (file : String) (line : Nat) (message : String)
deriving DecidableEq

namespace Malformation

def message : Malformation → String
  | notDecimal tag => "Invalid lowering phase tag - '" ++ tag ++ "'"
  | outOfRange tag => "Lowering phase tag out of range - '" ++ tag ++ "'"
  | functionTag f tag =>
    "Function " ++ f.text ++ " carries invalid 'lower-phase' attribute - '" ++ tag ++ "'"
  | located _ _ message => message

/-- The message, after its place where one is known. -/
def text : Malformation → String
  | located file line message => file ++ ":" ++ toString line ++ ": " ++ message
  | m => m.message

end Malformation

/-- A promise of the module's owner that does not hold. -/
inductive Violation where
  /-- A protected function, given with the name shown for it, is marked for removal. -/
  | protectedMarked (function : FunctionId) (name : String) (phase : Nat)
  | stated (message : String)
deriving DecidableEq

def Violation.message : Violation → String
  | protectedMarked _ name phase =>
    "protected function " ++ name ++ " carries lowering phase " ++ toString phase
  | stated message => message

/-- Why an operation stopped. -/
inductive Fault where
  | malformed (cause : Malformation)
  | invariantViolation (cause : Violation)
  | unknownFunction (function : FunctionId)
  | duplicateFunction (name : String)
  /-- No number is left for a handle of this kind. -/
  | identifiersExhausted (kind : String)
  /-- Every one of `scans` scans of the module still inlined something. -/
  | notConverged (phase scans : Nat)
  | other (message : String)
deriving DecidableEq

def Fault.text : Fault → String
  | malformed cause => "Malformed - " ++ cause.text
  | invariantViolation cause => "Invariant violation - " ++ cause.message
  | unknownFunction f => "Unknown function - " ++ f.text
  | duplicateFunction name => "Duplicate function - " ++ name
  | identifiersExhausted kind => "Identifiers exhausted - no " ++ kind ++ " identifiers left"
  | notConverged phase scans =>
    "Fixpoint inlining for phase " ++ toString phase ++ " did not converge after "
      ++ toString scans ++ " iterations"
  | other message => message

end PhasedInlining
