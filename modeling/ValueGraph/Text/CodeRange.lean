/-
  ValueGraph.Text.CodeRange

  Sets of characters given by ranges of code points, as the Unicode character
  database lists its properties.
-/

namespace ValueGraph.Text

/-- A range of code points, both ends included. -/
abbrev CodeRange : Type := Nat × Nat

/-- Whether one of the ranges holds the character. -/
def inRanges (ranges : List CodeRange) (c : Char) : Bool :=
  ranges.any fun range => range.1 ≤ c.toNat && c.toNat ≤ range.2

theorem inRanges_iff {ranges : List CodeRange} {c : Char} :
    inRanges ranges c = true ↔ ∃ range ∈ ranges, range.1 ≤ c.toNat ∧ c.toNat ≤ range.2 := by
  simp [inRanges]

end ValueGraph.Text
