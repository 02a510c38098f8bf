/-
  ValueGraph.Decimal.Shortest

  The shortest decimal that reads back as a given binary number.  The decimals
  with a fixed exponent form a grid; the answer lies on the coarsest grid that
  has a point in the interval of the reals that round to the binary number, and
  is the point of that grid nearest to it.
-/

namespace ValueGraph.Decimal

/-- A positive binary number `mantissa * 2 ^ exponent` among its neighbours.  They are one unit of
    the mantissa away, except that the lower one may be only half a unit away. -/
structure Binary where
  mantissa : Nat
  exponent : Int
  /-- The lower neighbour is half a unit away. -/
  narrowBelow : Bool

/-- A decimal number `digits * 10 ^ exponent`. -/
structure Point where
  digits : Nat
  exponent : Int
deriving DecidableEq

namespace Binary

/-- The ratio of a quarter of the binary unit to `10 ^ exponent`, as a fraction. -/
def quarterRatio (x : Binary) (exponent : Int) : Nat × Nat :=
  let quarter := x.exponent - 2
  (Nat.pow 2 quarter.toNat * Nat.pow 10 (-exponent).toNat,
    Nat.pow 2 (-quarter).toNat * Nat.pow 10 exponent.toNat)

/-- The point of the grid with the given exponent that is nearest to the number, of the points
    that read back as the number; of two that are equally near, the larger.  The interval holds
    its ends exactly if the mantissa is even. -/
def nearestOn? (x : Binary) (exponent : Int) : Option Nat :=
  -- Everything is counted in quarters of the binary unit, times the common denominator.
  let (unit, step) := x.quarterRatio exponent
  let value := 4 * x.mantissa * unit
  let low := (4 * x.mantissa - (if x.narrowBelow then 1 else 2)) * unit
  let high := (4 * x.mantissa + 2) * unit
  let readsBack (digits : Nat) : Bool :=
    let point := digits * step
    if x.mantissa % 2 = 0 then low ≤ point && point ≤ high else low < point && point < high
  let below := value / step
  -- If any point of the grid reads back, one of the two next to the number does.
  match readsBack below, readsBack (below + 1) with
  | true, true => if 2 * value < (2 * below + 1) * step then some below else some (below + 1)
  | true, false => some below
  | false, true => some (below + 1)
  | false, false => none

/-- The shortest decimal that reads back as the number, with an exponent of at most `coarsest`.
    The search goes down `depth` grids. -/
def shortest? (x : Binary) (coarsest : Int) (depth : Nat) : Option Point :=
  (List.range depth).findSome? fun (i : Nat) =>
    let exponent := coarsest - i
    (x.nearestOn? exponent).map (⟨·, exponent⟩)

/-- The number itself, written out to the last binary place. -/
def exact (x : Binary) : Point :=
  ⟨x.mantissa * Nat.pow 2 x.exponent.toNat * Nat.pow 5 (-x.exponent).toNat, min x.exponent 0⟩

end Binary

end ValueGraph.Decimal
