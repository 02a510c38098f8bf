/-
  ValueGraph.Proofs.Term.Readability

  The text of a term can be read in one way only, as long as the term has no
  double, no string and no call in it (`Plain`).

  The text of such a term is a word and, unless the term is a leaf, the texts of
  its operands between brackets (`chars_eq`).  No bracket or comma stands in a
  word (`not_breaks_of_mem_word`), so the first of them is where a word ends, and
  a word has one meaning (`Label.word_inj`).  Hence two texts that agree as far as
  a comma, a closing bracket or the end are texts of one term (`Plain.readable`).
  Static types are not written, so the term is known but for these (`untyped`).
-/
import Mathlib.Data.List.Nodup
import Std.Data.String.ToInt
import ValueGraph.Proofs.Term.Operands
import ValueGraph.Term.Render

namespace ValueGraph

/-! ## Words -/

/-- The top of a term without its type: a literal that is no double and no string, a parameter, the
    receiver, or an operator. -/
inductive Label where
  | int (value : Int32)
  | long (value : Int64)
  | null
  | arg (position : UInt16)
  | this
  | comparison (op : RelOp)
  | arithmetic (op : ArithOp)
  | negation
deriving DecidableEq

namespace Label

/-- The text of a label. -/
def word : Label → String
  | int value => toString value.toInt
  | long value => toString value.toInt ++ "L"
  | null => "null"
  | arg position => "arg" ++ toString position.toNat
  | this => "this"
  | comparison op => op.name
  | arithmetic op => op.name
  | negation => "not"

/-- The letters in the text of a label. -/
def letters : Label → List Char
  | int _ => []
  | long _ => ['L']
  | arg _ => ['a', 'r', 'g']
  | null => "null".toList
  | this => "this".toList
  | comparison op => op.name.toList
  | arithmetic op => op.name.toList
  | negation => "not".toList

/-- The label with its number, if it has one, replaced by zero. -/
def family : Label → Label
  | int _ => int 0
  | long _ => long 0
  | arg _ => arg 0
  | label => label

/-- All labels that have no number but zero. -/
def families : List Label :=
  [int 0, long 0, null, arg 0, this, negation] ++ RelOp.all.map comparison
    ++ ArithOp.all.map arithmetic

theorem family_mem_families (label : Label) : label.family ∈ families := by
  cases label with
  | comparison op => cases op <;> decide
  | arithmetic op => cases op <;> decide
  | int | long | null | arg | this | negation => simp [family, families]

theorem letters_family (label : Label) : label.family.letters = label.letters := by
  cases label <;> rfl

/-- The letters tell the labels apart that have no number but zero. -/
theorem nodup_letters_families : (families.map letters).Nodup := by decide

theorem family_eq_of_letters {a b : Label} (h : a.letters = b.letters) : a.family = b.family := by
  apply List.inj_on_of_nodup_map nodup_letters_families (family_mem_families a)
    (family_mem_families b)
  rw [letters_family, letters_family, h]

end Label

/-! ## What words are made of -/

theorem isAlpha_of_isDigit {c : Char} (h : c.isDigit = true) : c.isAlpha = false := by
  rw [← Bool.not_eq_true]
  unfold Char.isDigit at h
  unfold Char.isAlpha Char.isUpper Char.isLower
  simp only [Bool.or_eq_true, Bool.and_eq_true, decide_eq_true_eq, UInt32.le_iff_toNat_le,
    ge_iff_le] at h ⊢
  change 48 ≤ c.toNat ∧ c.toNat ≤ 57 at h
  change ¬ ((65 ≤ c.toNat ∧ c.toNat ≤ 90) ∨ (97 ≤ c.toNat ∧ c.toNat ≤ 122))
  omega

theorem isDigit_of_mem_toString {n : Nat} {c : Char} (hc : c ∈ (toString n).toList) :
    c.isDigit = true := by
  rw [Nat.toString_eq_repr, Nat.toList_repr] at hc
  exact Nat.isDigit_of_mem_toDigits (by decide) (by decide) hc

theorem mem_toString_int {z : Int} {c : Char} (hc : c ∈ (toString z).toList) :
    c = '-' ∨ c.isDigit = true := by
  rw [Int.toString_eq_repr, Int.repr_eq_if] at hc
  split at hc
  case isTrue => exact Or.inr (isDigit_of_mem_toString hc)
  case isFalse =>
    rw [String.toList_append, List.mem_append] at hc
    rcases hc with hsign | hdigits
    · exact Or.inl (List.mem_singleton.mp hsign)
    · exact Or.inr (isDigit_of_mem_toString hdigits)

theorem filter_isAlpha_toString (n : Nat) : (toString n).toList.filter Char.isAlpha = [] := by
  apply List.filter_eq_nil_iff.mpr
  intro c hc
  rw [isAlpha_of_isDigit (isDigit_of_mem_toString hc)]
  exact Bool.false_ne_true

theorem filter_isAlpha_toString_int (z : Int) : (toString z).toList.filter Char.isAlpha = [] := by
  apply List.filter_eq_nil_iff.mpr
  intro c hc
  rcases mem_toString_int hc with rfl | hdigit
  · decide
  · rw [isAlpha_of_isDigit hdigit]
    exact Bool.false_ne_true

/-- The character ends a word. -/
def Breaks (c : Char) : Prop := c = '(' ∨ c = ',' ∨ c = ')'

theorem not_breaks_of_isAlpha {c : Char} (h : c.isAlpha = true) : ¬ Breaks c := by
  rintro (rfl | rfl | rfl) <;> exact absurd h (by decide)

theorem not_breaks_of_isDigit {c : Char} (h : c.isDigit = true) : ¬ Breaks c := by
  rintro (rfl | rfl | rfl) <;> exact absurd h (by decide)

namespace Label

variable {a b : Label}

theorem filter_word (label : Label) : label.word.toList.filter Char.isAlpha = label.letters := by
  cases label with
  | int value => exact filter_isAlpha_toString_int value.toInt
  | long value =>
      rw [word, String.toList_append, List.filter_append, filter_isAlpha_toString_int]
      rfl
  | arg position =>
      rw [word, String.toList_append, List.filter_append, filter_isAlpha_toString]
      rfl
  | comparison op => cases op <;> rfl
  | arithmetic op => cases op <;> rfl
  | null | this | negation => rfl

theorem not_breaks_of_mem_letters (label : Label) {c : Char} (hc : c ∈ label.letters) :
    ¬ Breaks c := by
  rw [← filter_word, List.mem_filter] at hc
  exact not_breaks_of_isAlpha hc.2

/-- No bracket and no comma stands in a word. -/
theorem not_breaks_of_mem_word (label : Label) {c : Char} (hc : c ∈ label.word.toList) :
    ¬ Breaks c := by
  have hnumber : ∀ z : Int, c ∈ (toString z).toList → ¬ Breaks c := by
    intro z hc
    rcases mem_toString_int hc with rfl | hdigit
    · simp [Breaks]
    · exact not_breaks_of_isDigit hdigit
  cases label with
  | int value => exact hnumber value.toInt hc
  | long value =>
      rw [word, String.toList_append, List.mem_append] at hc
      rcases hc with hc | hc
      · exact hnumber value.toInt hc
      · exact not_breaks_of_mem_letters (long value) hc
  | arg position =>
      rw [word, String.toList_append, List.mem_append] at hc
      rcases hc with hc | hc
      · exact not_breaks_of_mem_letters (arg position) hc
      · exact not_breaks_of_isDigit (isDigit_of_mem_toString hc)
  | comparison op => exact not_breaks_of_mem_letters (comparison op) hc
  | arithmetic op => exact not_breaks_of_mem_letters (arithmetic op) hc
  | null => exact not_breaks_of_mem_letters null hc
  | this => exact not_breaks_of_mem_letters this hc
  | negation => exact not_breaks_of_mem_letters negation hc

/-- Labels with the same text are the same. -/
theorem word_inj (h : a.word = b.word) : a = b := by
  -- The letters leave nothing open but the number, and the number is the rest of the word.
  have hletters : a.letters = b.letters := by
    rw [← filter_word, ← filter_word, h]
  have hfamily := family_eq_of_letters hletters
  cases a <;> cases b <;> cases hfamily
  case int.int v w =>
    rw [word, word, Int.toString_eq_repr, Int.toString_eq_repr, Int.repr_inj] at h
    rw [Int32.toInt_inj.mp h]
  case long.long v w =>
    rw [word, word, String.append_left_inj, Int.toString_eq_repr, Int.toString_eq_repr,
      Int.repr_inj] at h
    rw [Int64.toInt_inj.mp h]
  case arg.arg p q =>
    rw [word, word, String.append_right_inj, Nat.toString_eq_repr, Nat.toString_eq_repr,
      Nat.repr_inj] at h
    rw [UInt16.toNat_inj.mp h]
  all_goals rfl

end Label

/-! ## Words between brackets and commas -/

/-- The text goes on with a comma or a closing bracket, if it goes on at all. -/
def Closes (rest : List Char) : Prop := ∀ c ∈ rest.head?, c = ',' ∨ c = ')'

/-- A word ends where a bracket or a comma stands, or the text does. -/
theorem append_word_inj {word word' rest rest' : List Char}
    (hword : ∀ c ∈ word, ¬ Breaks c) (hword' : ∀ c ∈ word', ¬ Breaks c)
    (hrest : ∀ c ∈ rest.head?, Breaks c) (hrest' : ∀ c ∈ rest'.head?, Breaks c)
    (h : word ++ rest = word' ++ rest') : word = word' ∧ rest = rest' := by
  induction word generalizing word' with
  | nil =>
      cases word' with
      | nil => exact ⟨rfl, h⟩
      | cons c word' =>
          have hc : Breaks c := hrest c (congrArg List.head? h)
          exact absurd hc (hword' c List.mem_cons_self)
  | cons c word ih =>
      cases word' with
      | nil =>
          have hc : Breaks c := hrest' c (congrArg List.head? h).symm
          exact absurd hc (hword c List.mem_cons_self)
      | cons c' word' =>
          obtain ⟨rfl, htail⟩ := List.cons.inj h
          have hmore : ∀ d ∈ word, ¬ Breaks d := fun d hd => hword d (List.mem_cons_of_mem _ hd)
          have hmore' : ∀ d ∈ word', ¬ Breaks d := fun d hd => hword' d (List.mem_cons_of_mem _ hd)
          obtain ⟨rfl, rfl⟩ := ih hmore hmore' htail
          exact ⟨rfl, rfl⟩

/-- Texts each behind a comma and a space, and the closing bracket. -/
def closed : List (List Char) → List Char
  | [] => [')']
  | text :: texts => ',' :: ' ' :: (text ++ closed texts)

/-- Texts between brackets, with commas between them; no brackets if there is no text. -/
def enclosed : List (List Char) → List Char
  | [] => []
  | text :: texts => '(' :: (text ++ closed texts)

theorem closes_closed (texts : List (List Char)) (rest : List Char) :
    Closes (closed texts ++ rest) := by
  intro c hc
  cases texts with
  | nil => exact Or.inr (Option.some.inj hc).symm
  | cons text texts => exact Or.inl (Option.some.inj hc).symm

theorem breaks_head_enclosed (texts : List (List Char)) {rest : List Char} (hrest : Closes rest) :
    ∀ c ∈ (enclosed texts ++ rest).head?, Breaks c := by
  intro c hc
  cases texts with
  | nil => exact Or.inr (hrest c hc)
  | cons text texts => exact Or.inl (Option.some.inj hc).symm

/-! ## Terms -/

namespace Term

mutual

/-- The term with one and the same type everywhere. -/
def untyped : Term → Term
  | leaf value _ => leaf value .void
  | comparison op left right _ => comparison op left.untyped right.untyped .void
  | arithmetic op left right _ => arithmetic op left.untyped right.untyped .void
  | negation operand _ => negation operand.untyped .void
  | virtualCall sig receiver args _ => virtualCall sig receiver.untyped (untypedAll args) .void
  | staticCall sig args _ => staticCall sig (untypedAll args) .void
  | unresolved id => unresolved id

/-- The terms of a list with one and the same type everywhere. -/
def untypedAll : List Term → List Term
  | [] => []
  | first :: rest => first.untyped :: untypedAll rest

end

theorem untypedAll_eq (ts : List Term) : untypedAll ts = ts.map untyped := by
  induction ts with
  | nil => rfl
  | cons first rest ih => rw [untypedAll, ih, List.map_cons]

theorem operands_untyped (t : Term) : t.untyped.operands = t.operands.map untyped := by
  cases t <;> simp [untyped, operands, untypedAll_eq]

/-- The label of a term; a double, a string, a call and an identifier without a node have none. -/
def label? : Term → Option Label
  | leaf (.int value) _ => some (.int value)
  | leaf (.long value) _ => some (.long value)
  | leaf .null _ => some .null
  | leaf (.arg position) _ => some (.arg position)
  | leaf .this _ => some .this
  | comparison op _ _ _ => some (.comparison op)
  | arithmetic op _ _ _ => some (.arithmetic op)
  | negation _ _ => some .negation
  | leaf (.double _) _ | leaf (.str _) _ | virtualCall .. | staticCall .. | unresolved _ => none

/-- No double, no string, no call and no identifier without a node is inside the term. -/
def Plain (t : Term) : Prop := ∀ s ∈ t.subterms, s.label?.isSome = true

variable {s t : Term} {label : Label} {names names' : NameTable}

theorem plain_iff : t.Plain ↔ t.label?.isSome = true ∧ ∀ o ∈ t.operands, o.Plain :=
  forall_mem_subterms_iff

theorem Plain.exists_label (h : t.Plain) : ∃ label, t.label? = some label :=
  Option.isSome_iff_exists.mp (plain_iff.mp h).1

theorem Plain.operand (h : t.Plain) {o : Term} (ho : o ∈ t.operands) : o.Plain :=
  (plain_iff.mp h).2 o ho

end Term

/-- The term without types that has the label over the operands, if there are as many of them as the
    label takes. -/
def Label.over : Label → List Term → Term
  | int value, _ => .leaf (.int value) .void
  | long value, _ => .leaf (.long value) .void
  | null, _ => .leaf .null .void
  | arg position, _ => .leaf (.arg position) .void
  | this, _ => .leaf .this .void
  | comparison op, [left, right] => .comparison op left right .void
  | arithmetic op, [left, right] => .arithmetic op left right .void
  | negation, [operand] => .negation operand .void
  | comparison _, _ | arithmetic _, _ | negation, _ => .unresolved .invalid

namespace Term

variable {s t : Term} {label : Label} {names names' : NameTable}

/-- But for types, a term is its label over its operands. -/
theorem untyped_eq_over (h : t.label? = some label) :
    t.untyped = label.over (t.operands.map untyped) := by
  cases t with
  | leaf value ty => cases value <;> cases h <;> rfl
  | comparison | arithmetic | negation =>
      cases h
      rfl
  | virtualCall | staticCall | unresolved => cases h

theorem label?_untyped (t : Term) : t.untyped.label? = t.label? := by
  cases t with
  | leaf value ty => cases value <;> rfl
  | comparison | arithmetic | negation | virtualCall | staticCall | unresolved => rfl

/-! ## Texts of terms -/

/-- The characters in the text of a term. -/
def chars (names : NameTable) (t : Term) : List Char := (t.render names).toList

/-- The text of a term is its word and the texts of its operands between brackets. -/
theorem chars_eq (h : t.label? = some label) :
    t.chars names = label.word.toList ++ enclosed (t.operands.map (chars names)) := by
  cases t with
  | leaf value ty =>
      cases value <;> cases h <;>
        simp [chars, render, write, Leaf.render, operands, enclosed, Label.word]
  | comparison op left right ty | arithmetic op left right ty =>
      cases h
      rw [chars, render, write, write_eq_append_render, write_eq_append_render names left]
      simp [chars, operands, enclosed, closed, Label.word]
  | negation operand ty =>
      cases h
      rw [chars, render, write, write_eq_append_render]
      simp [chars, operands, enclosed, closed, Label.word]
  | virtualCall | staticCall | unresolved => cases h

/-- The text of a plain term does not depend on its types, and on no table of names. -/
theorem Plain.chars_untyped (h : t.Plain) : t.untyped.chars names = t.chars names' := by
  induction t using induct with
  | node t ih =>
      obtain ⟨label, hlabel⟩ := h.exists_label
      have hoperands : t.operands.map (chars names ∘ untyped) = t.operands.map (chars names') :=
        List.map_congr_left fun o ho => ih o ho (h.operand ho)
      rw [chars_eq hlabel, chars_eq ((label?_untyped t).trans hlabel), operands_untyped,
        List.map_map, hoperands]

/-! ## Reading -/

/-- Up to a comma, a closing bracket or the end, texts of the one kind of term are read as texts of
    the other kind in one way only. -/
def Readable (names names' : NameTable) (s t : Term) : Prop :=
  ∀ rest rest', Closes rest → Closes rest' → s.chars names ++ rest = t.chars names' ++ rest' →
    s.untyped = t.untyped ∧ rest = rest'

variable {ss ts : List Term} {rest rest' : List Char}

/-- Reading goes on behind the first of several operands. -/
theorem Readable.cons (hfirst : Readable names names' s t)
    (hothers : closed (ss.map (chars names)) ++ rest = closed (ts.map (chars names')) ++ rest' →
      ss.map untyped = ts.map untyped ∧ rest = rest')
    (h : s.chars names ++ (closed (ss.map (chars names)) ++ rest)
      = t.chars names' ++ (closed (ts.map (chars names')) ++ rest')) :
    (s :: ss).map untyped = (t :: ts).map untyped ∧ rest = rest' := by
  obtain ⟨hst, hmore⟩ := hfirst _ _ (closes_closed _ _) (closes_closed _ _) h
  obtain ⟨hmap, hrest⟩ := hothers hmore
  rw [List.map_cons, List.map_cons, hst, hmap]
  exact ⟨rfl, hrest⟩

theorem closed_inj (hread : ∀ s ∈ ss, ∀ t ∈ ts, Readable names names' s t)
    (h : closed (ss.map (chars names)) ++ rest = closed (ts.map (chars names')) ++ rest') :
    ss.map untyped = ts.map untyped ∧ rest = rest' := by
  induction ss generalizing ts with
  | nil =>
      cases ts with
      | nil => exact ⟨rfl, (List.cons.inj h).2⟩
      | cons t ts => exact absurd (List.cons.inj h).1 (by decide)
  | cons s ss ih =>
      cases ts with
      | nil => exact absurd (List.cons.inj h).1 (by decide)
      | cons t ts =>
          have hfirst := hread s List.mem_cons_self t List.mem_cons_self
          refine hfirst.cons (ih fun s hs t ht => ?_) ?_
          · exact hread s (List.mem_cons_of_mem _ hs) t (List.mem_cons_of_mem _ ht)
          · simpa [closed] using h

theorem enclosed_inj (hread : ∀ s ∈ ss, ∀ t ∈ ts, Readable names names' s t)
    (hrest : Closes rest) (hrest' : Closes rest')
    (h : enclosed (ss.map (chars names)) ++ rest = enclosed (ts.map (chars names')) ++ rest') :
    ss.map untyped = ts.map untyped ∧ rest = rest' := by
  -- An opening bracket closes nothing, so there are operands on both sides or on none.
  have hopens : ∀ {more : List Char}, ¬ Closes ('(' :: more) := fun hcloses =>
    absurd (hcloses '(' rfl) (by decide)
  cases ss with
  | nil =>
      cases ts with
      | nil => exact ⟨rfl, h⟩
      | cons t ts =>
          rw [List.map_nil, enclosed, List.nil_append] at h
          exact absurd (h ▸ hrest) hopens
  | cons s ss =>
      cases ts with
      | nil =>
          rw [List.map_nil, enclosed, List.nil_append] at h
          exact absurd (h ▸ hrest') hopens
      | cons t ts =>
          have hfirst := hread s List.mem_cons_self t List.mem_cons_self
          refine hfirst.cons (closed_inj fun s hs t ht => ?_) ?_
          · exact hread s (List.mem_cons_of_mem _ hs) t (List.mem_cons_of_mem _ ht)
          · simpa [enclosed] using h

/-- The texts of plain terms can be read in one way only. -/
theorem Plain.readable (hs : s.Plain) (ht : t.Plain) : Readable names names' s t := by
  induction s using induct generalizing t with
  | node s ih =>
      intro rest rest' hrest hrest' h
      obtain ⟨label, hlabel⟩ := hs.exists_label
      obtain ⟨label', hlabel'⟩ := ht.exists_label
      rw [chars_eq hlabel, chars_eq hlabel', List.append_assoc, List.append_assoc] at h
      obtain ⟨hword, hmore⟩ := append_word_inj (fun _ => label.not_breaks_of_mem_word)
        (fun _ => label'.not_breaks_of_mem_word) (breaks_head_enclosed _ hrest)
        (breaks_head_enclosed _ hrest') h
      -- The words are the same, and so are the labels; the operands are read one after the other.
      obtain rfl : label = label' := Label.word_inj (String.toList_inj.mp hword)
      have hread : ∀ o ∈ s.operands, ∀ o' ∈ t.operands, Readable names names' o o' :=
        fun o ho o' ho' => ih o ho (hs.operand ho) (ht.operand ho')
      obtain ⟨hoperands, rfl⟩ := enclosed_inj hread hrest hrest' hmore
      rw [untyped_eq_over hlabel, untyped_eq_over hlabel', hoperands]
      exact ⟨rfl, rfl⟩

/-- Two plain terms have the same text exactly if they are the same but for types, whatever the
    tables of names. -/
theorem Plain.render_eq_iff (hs : s.Plain) (ht : t.Plain) :
    s.render names = t.render names' ↔ s.untyped = t.untyped := by
  constructor
  · intro h
    have hcloses : Closes [] := nofun
    have hchars : s.chars names ++ [] = t.chars names' ++ [] := by
      rw [chars, chars, h]
    exact (hs.readable ht _ _ hcloses hcloses hchars).1
  · intro h
    have hchars : s.chars names = t.chars names' :=
      calc s.chars names = s.untyped.chars names := hs.chars_untyped.symm
        _ = t.untyped.chars names := by rw [h]
        _ = t.chars names' := ht.chars_untyped
    exact String.toList_inj.mp hchars

end Term

end ValueGraph
