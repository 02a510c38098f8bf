/-
  ValueGraph.Decimal.Layout

  How a decimal number is written: with its point in place, or as a leading
  digit, a fraction and an exponent.
-/
import ValueGraph.Decimal.Shortest

namespace ValueGraph.Decimal

/-- The choices of a number format. -/
structure Layout where
  /-- The smallest exponent of a leading digit that is written with the point in place. -/
  least : Int
  /-- The smallest exponent of a leading digit, above that, that is written as an exponent. -/
  limit : Int

/-- So many zeros. -/
def zeros (count : Nat) : String := String.ofList (List.replicate count '0')

/-- A number with its point in place, and at least one digit behind the point.  `lead` is the
    exponent of the leading digit. -/
def writePositional (digits : List Char) (lead : Int) : String :=
  if lead < 0 then
    "0." ++ zeros (-lead - 1).toNat ++ String.ofList digits
  else
    let whole := lead.toNat + 1
    if digits.length ≤ whole then
      String.ofList digits ++ zeros (whole - digits.length) ++ ".0"
    else
      String.ofList (digits.take whole) ++ "." ++ String.ofList (digits.drop whole)

/-- A number as a leading digit, a fraction if there is one, and an exponent. -/
def writeScientific (digits : List Char) (lead : Int) : String :=
  let fraction := digits.drop 1
  String.ofList (digits.take 1)
    ++ (if fraction.isEmpty then "" else "." ++ String.ofList fraction)
    ++ "e" ++ toString lead

/-- Writes a decimal number as the layout says. -/
def Layout.write (layout : Layout) (point : Point) : String :=
  let digits := Nat.toDigits 10 point.digits
  let lead := point.exponent + digits.length - 1
  if layout.least ≤ lead && lead < layout.limit then
    writePositional digits lead
  else
    writeScientific digits lead

end ValueGraph.Decimal
