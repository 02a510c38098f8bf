/-
  ValueGraph.Text.Blank

  Blanks, the characters of the Unicode property White_Space, and trimming.
-/
import ValueGraph.Text.CodeRange

namespace ValueGraph.Text

/-- The code points of the property. -/
def blankRanges : List CodeRange :=
  [(0x9, 0xd), (0x20, 0x20), (0x85, 0x85), (0xa0, 0xa0), (0x1680, 0x1680), (0x2000, 0x200a),
    (0x2028, 0x2029), (0x202f, 0x202f), (0x205f, 0x205f), (0x3000, 0x3000)]

/-- Whether the character is a blank. -/
def isBlank (c : Char) : Bool := inRanges blankRanges c

/-- The text without the blanks at its two ends. -/
def trim (text : List Char) : List Char :=
  ((text.dropWhile isBlank).reverse.dropWhile isBlank).reverse

/-- Between two characters that are no blanks nothing is trimmed, and around them only blanks. -/
theorem trim_append {before after : List Char} (middle : List Char)
    (blankBefore : ∀ c ∈ before, isBlank c = true) (blankAfter : ∀ c ∈ after, isBlank c = true) :
    trim (before ++ middle ++ after) = trim middle := by
  have dropBefore : (before ++ middle ++ after).dropWhile isBlank
      = (middle ++ after).dropWhile isBlank := by
    rw [List.append_assoc, List.dropWhile_append_of_pos blankBefore]
  have dropAfter : ∀ text : List Char, (text ++ after).reverse.dropWhile isBlank
      = text.reverse.dropWhile isBlank := by
    intro text
    rw [List.reverse_append, List.dropWhile_append_of_pos]
    simpa using blankAfter
  rw [trim, trim, dropBefore, List.dropWhile_append]
  split
  case isTrue allBlank =>
    have afterBlank : after.dropWhile isBlank = [] := by
      rw [← List.append_nil after, List.dropWhile_append_of_pos blankAfter, List.dropWhile_nil]
    rw [afterBlank, List.isEmpty_iff.mp allBlank]
  case isFalse => rw [dropAfter]

end ValueGraph.Text
