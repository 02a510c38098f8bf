/-
  ValueGraph.Decimal.Double

  The text of a double, from its IEEE 754 bits: the shortest decimal that reads
  back as the same double.
-/
import ValueGraph.Decimal.Layout

namespace ValueGraph.Decimal

/-- What the bits of a double stand for. -/
inductive Double where
  | nan
  | infinite (negative : Bool)
  | zero (negative : Bool)
  | finite (negative : Bool) (magnitude : Binary)

namespace Double

/-- Reads the sign, the exponent and the fraction.  The exponent 0 marks a number without a
    leading one, and the exponent 2047 an infinity or no number. -/
def ofBits (bits : UInt64) : Double :=
  let negative := bits >>> 63 == 1
  let exponent := ((bits >>> 52) &&& 0x7ff).toNat
  let fraction := (bits &&& 0xfffffffffffff).toNat
  if exponent = 2047 then
    if fraction = 0 then infinite negative else nan
  else if exponent = 0 then
    if fraction = 0 then zero negative else finite negative ⟨fraction, -1074, false⟩
  else
    -- Below a power of two the doubles lie twice as close, except below the smallest such power.
    finite negative ⟨Nat.pow 2 52 + fraction, (exponent : Int) - 1075, fraction = 0 && exponent ≠ 1⟩

/-- Doubles have the point in place from 0.0001 up to, but not including, 10 ^ 16. -/
def layout : Layout := ⟨-4, 16⟩

/-- The shortest decimal that reads back as the magnitude.  No double needs a coarser grid than
    that of 10 ^ 309, and 17 digits are enough for the smallest one. -/
def shortest (magnitude : Binary) : Point :=
  (magnitude.shortest? 309 660).getD magnitude.exact

/-- The sign in front of a number. -/
def sign (negative : Bool) : String := if negative then "-" else ""

/-- The text of a double.  A value that is no number has no sign. -/
def render (bits : UInt64) : String :=
  match ofBits bits with
  | nan => "NaN"
  | infinite negative => sign negative ++ "inf"
  | zero negative => sign negative ++ "0.0"
  | finite negative magnitude => sign negative ++ layout.write (shortest magnitude)

end Double

end ValueGraph.Decimal
