/-
  ValueGraph.Decimal.Count

  Counts in decimal digits, as a setting gives them.
-/

namespace ValueGraph.Decimal

/-- The number that decimal digits stand for. -/
def valueOf (digits : List Char) : Nat :=
  digits.foldl (fun value c => 10 * value + (c.toNat - '0'.toNat)) 0

/-- The text behind a plus sign, or all of it if it does not begin with one. -/
def withoutPlus : List Char → List Char
  | '+' :: rest => rest
  | text => text

/-- A 32-bit count: ASCII digits, at least one, perhaps with one plus sign in front. -/
def count? (text : List Char) : Option UInt32 :=
  let digits := withoutPlus text
  if digits ≠ [] ∧ digits.all Char.isDigit ∧ valueOf digits < UInt32.size then
    some (.ofNat (valueOf digits))
  else
    none

end ValueGraph.Decimal
