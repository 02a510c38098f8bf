/-
  ValueGraph.Proofs.Decimal.Numeral

  Decimal numerals and the numbers that they stand for, as a grammar.

  A numeral is one digit or more, and every further digit counts for ten times
  less than the one before it (`Numeral`).  Reading a count accepts exactly the
  numerals within 32 bits, with or without a plus sign in front, and gives the
  number that they stand for (`count?_eq_some_iff`).
-/
import Mathlib.Data.List.Induction
import ValueGraph.Decimal.Count

namespace ValueGraph.Decimal

/-- Decimal digits, at least one, and the number that they stand for. -/
inductive Numeral : List Char → Nat → Prop
  | digit {c : Char} : c.isDigit = true → Numeral [c] (c.toNat - '0'.toNat)
  | more {digits : List Char} {value : Nat} {c : Char} :
      Numeral digits value → c.isDigit = true →
      Numeral (digits ++ [c]) (10 * value + (c.toNat - '0'.toNat))

/-- A numeral, perhaps with one plus sign in front, and the number that it stands for. -/
inductive WrittenCount : List Char → Nat → Prop
  | plain {digits : List Char} {value : Nat} : Numeral digits value → WrittenCount digits value
  | plus {digits : List Char} {value : Nat} :
      Numeral digits value → WrittenCount ('+' :: digits) value

variable {digits text : List Char} {value : Nat} {count : UInt32}

/-! ## Numerals -/

theorem valueOf_concat (digits : List Char) (c : Char) :
    valueOf (digits ++ [c]) = 10 * valueOf digits + (c.toNat - '0'.toNat) := by
  rw [valueOf, valueOf, List.foldl_append]
  rfl

theorem Numeral.valueOf_eq (h : Numeral digits value) : valueOf digits = value := by
  induction h with
  | digit _ => exact Nat.zero_add _
  | more _ _ ih => rw [valueOf_concat, ih]

theorem Numeral.ne_nil (h : Numeral digits value) : digits ≠ [] := by
  cases h with
  | digit _ => exact List.cons_ne_nil _ _
  | more _ _ => exact List.append_ne_nil_of_right_ne_nil _ (List.cons_ne_nil _ _)

theorem Numeral.isDigit (h : Numeral digits value) : ∀ c ∈ digits, c.isDigit = true := by
  induction h with
  | digit hc =>
      intro c' hc'
      rwa [List.mem_singleton.mp hc']
  | more _ hc ih =>
      intro c' hc'
      rcases List.mem_append.mp hc' with hdigits | hlast
      · exact ih c' hdigits
      · rwa [List.mem_singleton.mp hlast]

theorem numeral_valueOf (hne : digits ≠ []) (hdigits : ∀ c ∈ digits, c.isDigit = true) :
    Numeral digits (valueOf digits) := by
  -- The last digit is what the grammar adds, so the induction takes digits off at the end.
  induction digits using List.reverseRecOn with
  | nil => exact absurd rfl hne
  | append_singleton front c ih =>
      have hc : c.isDigit = true := hdigits c (by simp)
      rw [valueOf_concat]
      by_cases hfront : front = []
      · subst hfront
        have hzero : 10 * valueOf [] + (c.toNat - '0'.toNat) = c.toNat - '0'.toNat :=
          Nat.zero_add _
        rw [hzero]
        exact .digit hc
      · exact .more (ih hfront fun d hd => hdigits d (by simp [hd])) hc

/-- The numerals are the texts of digits alone, and each has one value. -/
theorem numeral_iff : Numeral digits value ↔
    digits ≠ [] ∧ (∀ c ∈ digits, c.isDigit = true) ∧ valueOf digits = value := by
  constructor
  · exact fun h => ⟨h.ne_nil, h.isDigit, h.valueOf_eq⟩
  · rintro ⟨hne, hdigits, rfl⟩
    exact numeral_valueOf hne hdigits

/-- The decimal text of a number is a numeral for it. -/
theorem numeral_toDigits (n : Nat) : Numeral (Nat.toDigits 10 n) n := by
  refine numeral_iff.mpr ⟨Nat.toDigits_ne_nil, fun c hc => ?_, ?_⟩
  · exact Nat.isDigit_of_mem_toDigits (by decide) (by decide) hc
  · rw [valueOf, ← Nat.ofDigitChars_eq_foldl]
    exact Nat.ofDigitChars_toDigits (by decide) (by decide)

/-! ## Counts -/

theorem writtenCount_iff : WrittenCount text value ↔ Numeral (withoutPlus text) value := by
  constructor
  · intro h
    cases h with
    | plus hdigits => exact hdigits
    | plain hdigits =>
        -- A numeral does not begin with a plus sign, so nothing is taken off.
        have hsame : withoutPlus text = text := by
          unfold withoutPlus
          split
          case h_1 => exact absurd (hdigits.isDigit '+' List.mem_cons_self) (by decide)
          case h_2 => rfl
        rwa [hsame]
  · intro h
    unfold withoutPlus at h
    split at h
    case h_1 => exact .plus h
    case h_2 => exact .plain h

theorem WrittenCount.unique {value' : Nat} (h : WrittenCount text value)
    (h' : WrittenCount text value') : value = value' := by
  rw [← (writtenCount_iff.mp h).valueOf_eq, (writtenCount_iff.mp h').valueOf_eq]

/-- A count has nothing in it but digits, and perhaps a plus sign. -/
theorem WrittenCount.isDigit (h : WrittenCount text value) :
    ∀ c ∈ text, c = '+' ∨ c.isDigit = true := by
  intro c hc
  cases h with
  | plain hdigits => exact Or.inr (hdigits.isDigit c hc)
  | plus hdigits =>
      rcases List.mem_cons.mp hc with rfl | hc
      · exact Or.inl rfl
      · exact Or.inr (hdigits.isDigit c hc)

/-- A text is read as a count exactly if it is written as one and the number has 32 bits. -/
theorem count?_eq_some_iff : count? text = some count ↔ WrittenCount text count.toNat := by
  rw [writtenCount_iff, numeral_iff, count?]
  constructor
  · intro h
    obtain ⟨⟨hne, hdigits, hvalue⟩, hcount⟩ := Option.ite_none_right_eq_some.mp h
    refine ⟨hne, List.all_eq_true.mp hdigits, ?_⟩
    rw [← Option.some.inj hcount, UInt32.toNat_ofNat_of_lt' hvalue]
  · rintro ⟨hne, hdigits, hvalue⟩
    have hlt : valueOf (withoutPlus text) < UInt32.size := by
      rw [hvalue]
      exact count.toNat_lt
    rw [if_pos ⟨hne, List.all_eq_true.mpr hdigits, hlt⟩, hvalue, UInt32.ofNat_toNat]

end ValueGraph.Decimal
