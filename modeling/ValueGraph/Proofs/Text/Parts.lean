/-
  ValueGraph.Proofs.Text.Parts

  Splitting, trimming and lower case, said without the functions that do them.

    * The parts of a text are the only texts without a separator that give the
      text when they are joined by separators (`splits_iff`).
    * The trimmed text is the only text without a blank at its ends that is the
      text but for blanks around it (`trims_iff`).
    * No ASCII letter is a blank, in either case, so it does not matter whether a
      text is first trimmed or first put into lower case (`trim_map_toLower`).
-/
import Mathlib.Data.List.TakeWhile
import ValueGraph.Text.Blank
import ValueGraph.Text.Fields

namespace ValueGraph.Text

/-! ## Parts -/

/-- The parts, joined by the separator, are the text, and none of them holds the separator. -/
structure Splits (separator : Char) (text : List Char) (parts : List (List Char)) : Prop where
  join : [separator].intercalate parts = text
  ne_nil : parts ≠ []
  not_mem : ∀ part ∈ parts, separator ∉ part

theorem fields_eq_splitOn (separator : Char) (text : List Char) :
    fields separator text = text.splitOn separator := by
  induction text with
  | nil => rfl
  | cons c rest ih =>
      rw [fields, ih, List.splitOn, List.splitOn, List.splitOnP_cons_eq_if_modifyHead]
      simp only [beq_iff_eq]

theorem splits_iff {separator : Char} {text : List Char} {parts : List (List Char)} :
    Splits separator text parts ↔ fields separator text = parts := by
  constructor
  · rintro ⟨rfl, hne, hmem⟩
    rw [fields_eq_splitOn, List.splitOn_intercalate separator hmem hne]
  · rintro rfl
    refine ⟨?_, fields_ne_nil separator text, fun part hpart => not_mem_of_mem_fields hpart⟩
    rw [fields_eq_splitOn, List.intercalate_splitOn]

/-! ## Blanks around a text -/

/-- The text is `core` with blanks before and behind it, if any. -/
def Pads (text core : List Char) : Prop :=
  ∃ before after, text = before ++ core ++ after ∧
    (∀ c ∈ before, isBlank c = true) ∧ ∀ c ∈ after, isBlank c = true

/-- The text is `core` with blanks around it, and `core` neither begins nor ends with one. -/
structure Trims (text core : List Char) : Prop where
  pads : Pads text core
  head : ∀ c ∈ core.head?, isBlank c = false
  last : ∀ c ∈ core.getLast?, isBlank c = false

theorem Pads.trim_eq {text core : List Char} (h : Pads text core) : trim text = trim core := by
  obtain ⟨before, after, rfl, hbefore, hafter⟩ := h
  exact trim_append core hbefore hafter

theorem dropWhile_isBlank_of_head {text : List Char} (h : ∀ c ∈ text.head?, isBlank c = false) :
    text.dropWhile isBlank = text := by
  cases text with
  | nil => rfl
  | cons c rest =>
      have hc : isBlank c = false := h c rfl
      rw [List.dropWhile_cons, hc]
      rfl

theorem isBlank_head_dropWhile (text : List Char) :
    ∀ c ∈ (text.dropWhile isBlank).head?, isBlank c = false := by
  intro c hc
  have hhead := List.head?_dropWhile_not isBlank text
  rw [hc] at hhead
  exact hhead

/-- Trimming takes off all the blanks that there are at the two ends, and nothing else. -/
theorem trims_trim (text : List Char) : Trims text (trim text) := by
  let behind := text.dropWhile isBlank
  have hbehind : text = text.takeWhile isBlank ++ behind :=
    List.takeWhile_append_dropWhile.symm
  have htrim : trim text = (behind.reverse.dropWhile isBlank).reverse := rfl
  have hsplit : behind = trim text ++ (behind.reverse.takeWhile isBlank).reverse := by
    rw [htrim, ← List.reverse_append, List.takeWhile_append_dropWhile, List.reverse_reverse]
  refine ⟨⟨text.takeWhile isBlank, (behind.reverse.takeWhile isBlank).reverse, ?_, ?_, ?_⟩, ?_, ?_⟩
  · rw [List.append_assoc, ← hsplit, ← hbehind]
  · exact fun c hc => List.mem_takeWhile_imp hc
  · exact fun c hc => List.mem_takeWhile_imp (List.mem_reverse.mp hc)
  · -- What is left begins as the text does behind its first blanks, if it begins at all.
    intro c hc
    apply isBlank_head_dropWhile text c
    show behind.head? = some c
    rw [hsplit, List.head?_append, hc]
    rfl
  · intro c hc
    rw [htrim, List.getLast?_reverse] at hc
    exact isBlank_head_dropWhile behind.reverse c hc

theorem trims_iff {text core : List Char} : Trims text core ↔ trim text = core := by
  constructor
  · rintro ⟨hpads, hhead, hlast⟩
    have hbefore : core.dropWhile isBlank = core := dropWhile_isBlank_of_head hhead
    have hafter : core.reverse.dropWhile isBlank = core.reverse := by
      apply dropWhile_isBlank_of_head
      rwa [List.head?_reverse]
    rw [hpads.trim_eq, trim, hbefore, hafter, List.reverse_reverse]
  · rintro rfl
    exact trims_trim text

theorem trims_self {text : List Char} (h : ∀ c ∈ text, isBlank c = false) : Trims text text where
  pads := ⟨[], [], (List.append_nil text).symm, nofun, nofun⟩
  head c hc := h c (List.mem_of_mem_head? hc)
  last c hc := h c (List.mem_of_mem_getLast? hc)

theorem isBlank_of_isDigit {c : Char} (h : c.isDigit = true) : isBlank c = false := by
  simp only [Char.isDigit, Bool.and_eq_true, decide_eq_true_eq] at h
  have hlow : 48 ≤ c.toNat := UInt32.le_iff_toNat_le.mp h.1
  have hhigh : c.toNat ≤ 57 := UInt32.le_iff_toNat_le.mp h.2
  rw [← Bool.not_eq_true, isBlank, inRanges_iff]
  simp only [blankRanges, List.mem_cons, List.not_mem_nil, or_false, exists_eq_or_imp,
    exists_eq_left]
  omega

/-! ## Case -/

/-- Two texts that differ at most in the case of ASCII letters. -/
def SameUpToCase (text other : List Char) : Prop :=
  text.map Char.toLower = other.map Char.toLower

/-- Two texts that differ at most in the case of ASCII letters and in the blanks around them. -/
def Respells (text other : List Char) : Prop :=
  ∃ core core', Pads text core ∧ Pads other core' ∧ SameUpToCase core core'

/-- No ASCII letter is a blank, in upper case or in lower case. -/
theorem isBlank_toLower (c : Char) : isBlank c.toLower = isBlank c := by
  unfold Char.toLower
  split
  case isFalse => rfl
  case isTrue hupper =>
    have hlow : 65 ≤ c.toNat := UInt32.le_iff_toNat_le.mp hupper.1
    have hhigh : c.toNat ≤ 90 := UInt32.le_iff_toNat_le.mp hupper.2
    have hlower : (c.val + ('a'.val - 'A'.val)).toNat = c.toNat + 32 := by
      rw [UInt32.toNat_add, Nat.mod_eq_of_lt]
      · rfl
      · show c.toNat + 32 < 2 ^ 32
        omega
    rw [Bool.eq_iff_iff, isBlank, isBlank, inRanges_iff, inRanges_iff]
    simp only [blankRanges, Char.toNat, hlower, List.mem_cons, List.not_mem_nil, or_false,
      exists_eq_or_imp, exists_eq_left]
    simp only [Char.toNat] at hlow hhigh
    omega

theorem dropWhile_isBlank_map_toLower (text : List Char) :
    (text.map Char.toLower).dropWhile isBlank = (text.dropWhile isBlank).map Char.toLower := by
  have hsame : isBlank ∘ Char.toLower = isBlank := funext isBlank_toLower
  rw [List.dropWhile_map, hsame]

theorem trim_map_toLower (text : List Char) :
    trim (text.map Char.toLower) = (trim text).map Char.toLower := by
  rw [trim, trim, dropWhile_isBlank_map_toLower, ← List.map_reverse,
    dropWhile_isBlank_map_toLower, List.map_reverse]

/-- The case of letters and the blanks around a text are lost by trimming and lower case. -/
theorem Respells.trim_toLower_eq {text other : List Char} (h : Respells text other) :
    (trim text).map Char.toLower = (trim other).map Char.toLower := by
  obtain ⟨core, core', htext, hother, hcase⟩ := h
  rw [htext.trim_eq, hother.trim_eq, ← trim_map_toLower, ← trim_map_toLower, hcase]

end ValueGraph.Text
