import PhasedInlining.Fault

/-!
# Phase tags

A tag is the text of a phase number: decimal digits, any number of leading zeros, a value of at
most 32 bits.
-/

namespace PhasedInlining

namespace Phase

/-- The value of a list of decimal digits, the most significant first. -/
def ofDigits (cs : List Char) : Nat := cs.foldl (fun n c => 10 * n + (c.toNat - '0'.toNat)) 0

/-- The phase that a tag names. -/
def parse (tag : String) : Except Malformation Nat :=
  let cs := tag.toList
  if cs.isEmpty || !cs.all Char.isDigit then .error (.notDecimal tag)
  else if maxNumber < ofDigits cs then .error (.outOfRange tag)
  else .ok (ofDigits cs)

end Phase

end PhasedInlining
