/-
  ValueGraph.Proofs.Name.Interning

  Interning over any history.

  What interning one text can do is said once (`intern_eq_ok`): it answers the
  name that the text has, or appends the text and answers its position.  So a
  table only grows (`Extends`), and a text keeps its name while it does
  (`Named.mono`).  The texts that have a name are then those that had one before
  and those that were interned (`textSet_of_internEach`), each of them once, which
  gives the size of a table after any history (`card_textSet`) and the exact room
  that a history needs (`exists_internEach`).
-/
import Mathlib.Data.Finset.Card
import Mathlib.Data.List.Forall2
import ValueGraph.NameTable

namespace ValueGraph

/-- The reserved names, each with its text. -/
def Name.reservedNames : List (Name × String) :=
  [(.empty, ""), (.objectClass, "java/lang/Object"), (.stringClass, "java/lang/String"),
    (.dateClass, "java/util/Date"), (.calendarClass, "java/util/Calendar"),
    (.sqlDateClass, "java/sql/Date"), (.sqlTimeClass, "java/sql/Time"),
    (.sqlTimestampClass, "java/sql/Timestamp"), (.equals, "equals"), (.before, "before"),
    (.after, "after"), (.objectTest, "(Ljava/lang/Object;)Z"), (.dateTest, "(Ljava/util/Date;)Z"),
    (.timestampTest, "(Ljava/sql/Timestamp;)Z")]

namespace NameTable

variable {table table' : NameTable} {text other : String} {texts : List String}
  {name name' : Name} {names : List Name}

/-! ## Interning one text -/

/-- Interning a text that has a name answers it; any other text is appended, if there is room. -/
theorem intern_eq_ok (h : table.intern text = .ok (name, table')) :
    (table.find? text = some name ∧ table' = table) ∨
      (table.find? text = none ∧ table.size < UInt32.size ∧ name = table.next ∧
        table'.texts = table.texts.push text) := by
  unfold intern at h
  split at h
  case h_1 found hfound =>
    cases h
    exact Or.inl ⟨hfound, rfl⟩
  case h_2 hfresh =>
    split at h
    case isTrue hroom =>
      cases h
      exact Or.inr ⟨hfresh, hroom, rfl, rfl⟩
    case isFalse => cases h

theorem intern_of_find? (h : table.find? text = some name) :
    table.intern text = .ok (name, table) := by
  unfold intern
  split
  case h_1 found hfound =>
    rw [h] at hfound
    cases hfound
    rfl
  case h_2 hfresh =>
    rw [h] at hfresh
    cases hfresh

/-- Interning can fail only if the text is new and the table is full. -/
theorem exists_intern (hroom : table.find? text = none → table.size < UInt32.size) :
    ∃ name table', table.intern text = .ok (name, table') := by
  unfold intern
  split
  case h_1 found hfound => exact ⟨found, table, rfl⟩
  case h_2 hfresh =>
    rw [dif_pos (hroom hfresh)]
    exact ⟨_, _, rfl⟩

theorem find?_of_intern (h : table.intern text = .ok (name, table')) :
    table'.find? text = some name := by
  rcases intern_eq_ok h with ⟨hfound, rfl⟩ | ⟨-, hroom, rfl, htexts⟩
  · exact hfound
  · rw [find?_eq_some_iff, index_next hroom, htexts, size, Array.getElem?_push_size]

/-! ## Texts and names -/

/-- A text has a name in a table: interning it answers the name and leaves the table as it is, and
    the name gives the text back. -/
structure Named (table : NameTable) (text : String) (name : Name) : Prop where
  intern_eq : table.intern text = .ok (name, table)
  getText_eq : table.getText name = text

theorem named_iff : table.Named text name ↔ table.find? text = some name := by
  constructor
  · rintro ⟨hintern, -⟩
    exact find?_of_intern hintern
  · intro hfound
    exact ⟨intern_of_find? hfound, getText_of_find? hfound⟩

/-- Two texts with names are the same exactly if their names are. -/
theorem Named.eq_iff (h : table.Named text name) (h' : table.Named other name') :
    name = name' ↔ text = other := by
  constructor
  · intro hname
    rw [← h.getText_eq, ← h'.getText_eq, hname]
  · intro htext
    rw [named_iff] at h h'
    rw [htext, h'] at h
    exact (Option.some.inj h).symm

theorem Named.index_lt (h : table.Named text name) : name.index < table.size := by
  rw [named_iff, find?_eq_some_iff] at h
  exact (Array.getElem?_eq_some_iff.mp h).1

/-- The names in use are the positions below the size of the table. -/
theorem exists_named_iff : (∃ text, table.Named text name) ↔ name.index < table.size := by
  constructor
  · rintro ⟨text, h⟩
    exact h.index_lt
  · intro hlt
    refine ⟨table.texts[name.index], ?_⟩
    rw [named_iff, find?_eq_some_iff]
    exact Array.getElem?_eq_getElem hlt

/-- A name beyond the table has the empty text. -/
theorem getText_of_size_le (h : table.size ≤ name.index) : table.getText name = "" := by
  have hnone : table.texts[name.index]? = none := Array.getElem?_eq_none h
  rw [getText, hnone, Option.getD_none]

/-! ## Growth -/

/-- Every text of the first table stands at the same place in the second. -/
def Extends (table table' : NameTable) : Prop := table.texts.toList <+: table'.texts.toList

theorem Extends.refl (table : NameTable) : table.Extends table := List.prefix_rfl

theorem Extends.trans {table₁ table₂ table₃ : NameTable} (h : table₁.Extends table₂)
    (h' : table₂.Extends table₃) : table₁.Extends table₃ :=
  List.IsPrefix.trans h h'

theorem Extends.getElem?_texts (hgrown : table.Extends table') {i : Nat}
    (h : table.texts[i]? = some text) : table'.texts[i]? = some text := by
  obtain ⟨added, htexts⟩ := hgrown
  rw [← Array.getElem?_toList] at h ⊢
  have hinside : i < table.texts.toList.length := (List.getElem?_eq_some_iff.mp h).1
  rw [← htexts, List.getElem?_append_left hinside, h]

theorem Named.mono (hgrown : table.Extends table') (h : table.Named text name) :
    table'.Named text name := by
  rw [named_iff, find?_eq_some_iff] at h ⊢
  exact hgrown.getElem?_texts h

/-- A name in use keeps its text. -/
theorem Extends.getText_eq (hgrown : table.Extends table') (h : name.index < table.size) :
    table'.getText name = table.getText name := by
  obtain ⟨text, hnamed⟩ := exists_named_iff.mpr h
  rw [(hnamed.mono hgrown).getText_eq, hnamed.getText_eq]

theorem extends_of_intern (h : table.intern text = .ok (name, table')) : table.Extends table' := by
  rcases intern_eq_ok h with ⟨-, rfl⟩ | ⟨-, -, -, htexts⟩
  · exact .refl _
  · rw [Extends, htexts, Array.toList_push]
    exact List.prefix_append _ _

theorem named_of_intern (h : table.intern text = .ok (name, table')) : table'.Named text name :=
  named_iff.mpr (find?_of_intern h)

/-! ## The texts that have a name -/

/-- A text has its position as its name. -/
theorem exists_named_of_getElem? {i : Nat} (h : table.texts[i]? = some text) :
    ∃ name : Name, name.index = i ∧ table.Named text name := by
  -- No text stands where a name could not point.
  have hlt : i < UInt32.size :=
    Nat.lt_of_lt_of_le (Array.getElem?_eq_some_iff.mp h).1 table.size_le
  have hindex : (⟨.ofNat i⟩ : Name).index = i := UInt32.toNat_ofNat_of_lt' hlt
  refine ⟨⟨.ofNat i⟩, hindex, ?_⟩
  rw [named_iff, find?_eq_some_iff, hindex, h]

theorem nodup_texts (table : NameTable) : table.texts.toList.Nodup := by
  rw [List.nodup_iff_getElem?_ne_getElem?]
  intro i j hij hj hsame
  have hstored : table.texts[j]? = some table.texts[j] := Array.getElem?_eq_getElem hj
  rw [Array.getElem?_toList, Array.getElem?_toList, hstored] at hsame
  obtain ⟨name, hname, hnamed⟩ := exists_named_of_getElem? hsame
  obtain ⟨name', hname', hnamed'⟩ := exists_named_of_getElem? hstored
  -- One text at two places would have two names.
  have heq : name = name' := (hnamed.eq_iff hnamed').mpr rfl
  rw [heq] at hname
  omega

/-- The texts that have a name. -/
def textSet (table : NameTable) : Finset String := table.texts.toList.toFinset

theorem mem_textSet : text ∈ table.textSet ↔ ∃ name, table.Named text name := by
  rw [textSet, List.mem_toFinset, List.mem_iff_getElem?]
  constructor
  · rintro ⟨i, hi⟩
    rw [Array.getElem?_toList] at hi
    obtain ⟨name, -, hnamed⟩ := exists_named_of_getElem? hi
    exact ⟨name, hnamed⟩
  · rintro ⟨name, hnamed⟩
    rw [named_iff, find?_eq_some_iff, ← Array.getElem?_toList] at hnamed
    exact ⟨name.index, hnamed⟩

theorem card_textSet (table : NameTable) : table.textSet.card = table.size := by
  rw [textSet, List.toFinset_card_of_nodup table.nodup_texts]
  exact Array.length_toList

theorem textSet_of_intern (h : table.intern text = .ok (name, table')) :
    table'.textSet = insert text table.textSet := by
  rcases intern_eq_ok h with ⟨hfound, rfl⟩ | ⟨-, -, -, htexts⟩
  · rw [Finset.insert_eq_of_mem (mem_textSet.mpr ⟨name, named_iff.mpr hfound⟩)]
  · rw [textSet, textSet, htexts, Array.toList_push, List.toFinset_append, List.toFinset_cons,
      List.toFinset_nil, insert_empty_eq, Finset.union_comm, Finset.insert_eq]

/-! ## Histories -/

/-- Interns the texts of a list one after the other, and answers their names. -/
def internEach (table : NameTable) : List String → Except Full (List Name × NameTable)
  | [] => .ok ([], table)
  | text :: rest => do
    let (name, table) ← table.intern text
    let (names, table) ← table.internEach rest
    return (name :: names, table)

theorem internEach_cons_eq_ok (h : table.internEach (text :: texts) = .ok (names, table')) :
    ∃ name table₁ rest, table.intern text = .ok (name, table₁) ∧
      table₁.internEach texts = .ok (rest, table') ∧ names = name :: rest := by
  rw [internEach] at h
  cases hfirst : table.intern text with
  | error full => rw [hfirst] at h; cases h
  | ok answer =>
      obtain ⟨name, table₁⟩ := answer
      rw [hfirst] at h
      change (table₁.internEach texts >>= _) = _ at h
      cases hrest : table₁.internEach texts with
      | error full => rw [hrest] at h; cases h
      | ok answer =>
          obtain ⟨rest, table₂⟩ := answer
          rw [hrest] at h
          cases h
          exact ⟨name, table₁, rest, rfl, hrest, rfl⟩

theorem extends_of_internEach (h : table.internEach texts = .ok (names, table')) :
    table.Extends table' := by
  induction texts generalizing table names with
  | nil =>
      cases h
      exact .refl _
  | cons text rest ih =>
      obtain ⟨name, table₁, names', hfirst, hrest, -⟩ := internEach_cons_eq_ok h
      exact (extends_of_intern hfirst).trans (ih hrest)

/-- The names that a history answers are names of its texts, and stay so. -/
theorem named_of_internEach (h : table.internEach texts = .ok (names, table')) :
    List.Forall₂ table'.Named texts names := by
  induction texts generalizing table names with
  | nil =>
      cases h
      exact .nil
  | cons text rest ih =>
      obtain ⟨name, table₁, names', hfirst, hrest, rfl⟩ := internEach_cons_eq_ok h
      exact .cons ((named_of_intern hfirst).mono (extends_of_internEach hrest)) (ih hrest)

theorem textSet_of_internEach (h : table.internEach texts = .ok (names, table')) :
    table'.textSet = table.textSet ∪ texts.toFinset := by
  induction texts generalizing table names with
  | nil =>
      cases h
      rw [List.toFinset_nil, Finset.union_empty]
  | cons text rest ih =>
      obtain ⟨name, table₁, names', hfirst, hrest, -⟩ := internEach_cons_eq_ok h
      rw [ih hrest, textSet_of_intern hfirst, List.toFinset_cons, Finset.insert_union,
        Finset.union_insert]

/-- A history succeeds if its new texts fit into the table. -/
theorem exists_internEach (hroom : (table.textSet ∪ texts.toFinset).card ≤ UInt32.size) :
    ∃ names table', table.internEach texts = .ok (names, table') := by
  induction texts generalizing table with
  | nil => exact ⟨[], table, rfl⟩
  | cons text rest ih =>
      have hfirst : ∃ name table₁, table.intern text = .ok (name, table₁) := by
        refine exists_intern fun hfresh => ?_
        -- The new text itself takes one of the places that are left.
        have hnew : text ∉ table.textSet := by
          rw [mem_textSet]
          rintro ⟨name, hnamed⟩
          rw [named_iff, hfresh] at hnamed
          cases hnamed
        have hsubset : insert text table.textSet ⊆ table.textSet ∪ (text :: rest).toFinset := by
          rw [List.toFinset_cons, Finset.union_insert]
          exact Finset.insert_subset_insert _ Finset.subset_union_left
        have hcard := Finset.card_le_card hsubset
        rw [Finset.card_insert_of_notMem hnew, card_textSet] at hcard
        omega
      obtain ⟨name, table₁, hfirst⟩ := hfirst
      have hrest : (table₁.textSet ∪ rest.toFinset).card ≤ UInt32.size := by
        rwa [textSet_of_intern hfirst, Finset.insert_union, ← Finset.union_insert,
          ← List.toFinset_cons]
      obtain ⟨names, table', hrest⟩ := ih hrest
      refine ⟨name :: names, table', ?_⟩
      rw [internEach, hfirst]
      change (table₁.internEach rest >>= _) = _
      rw [hrest]
      rfl

/-! ## Histories from the initial table -/

theorem named_initial {entry : Name × String} (h : entry ∈ Name.reservedNames) :
    initial.Named entry.2 entry.1 := by
  have hplaces : ∀ entry ∈ Name.reservedNames, Name.reserved[entry.1.index]? = some entry.2 := by
    decide
  rw [named_iff, find?_eq_some_iff, ← Array.getElem?_toList, texts_initial]
  exact hplaces entry h

theorem textSet_initial : initial.textSet = Name.reserved.toFinset := by
  rw [textSet, texts_initial]

theorem size_initial : initial.size = 14 := by
  rw [size, ← Array.length_toList, texts_initial]
  rfl

theorem card_reserved_union (texts : List String) :
    (initial.textSet ∪ texts.toFinset).card
      = 14 + (texts.toFinset \ Name.reserved.toFinset).card := by
  rw [Finset.union_comm, ← Finset.card_sdiff_add_card, card_textSet, size_initial,
    textSet_initial, Nat.add_comm]

/-- Interning is a stable bijection.  A history from the initial table, of any texts that fit into a
    table, answers a name for each of them, and two of them have the same name exactly if they are
    the same text.  Whatever is interned later, interning such a text again answers the same name,
    and the name gives the text back.  The table then holds the fourteen reserved texts and every
    other text of the history once; the names in use are the positions below its size, and any other
    name has the empty text.  The reserved names stand for their texts after every history. -/
theorem interning_stable (texts : List String)
    (hroom : 14 + (texts.toFinset \ Name.reserved.toFinset).card ≤ UInt32.size) :
    ∃ names table, initial.internEach texts = .ok (names, table) ∧
      (∀ p ∈ texts.zip names, ∀ q ∈ texts.zip names, p.2 = q.2 ↔ p.1 = q.1) ∧
      (∀ (more : List String) (answers : List Name) (later : NameTable),
        table.internEach more = .ok (answers, later) → List.Forall₂ later.Named texts names) ∧
      table.size = 14 + (texts.toFinset \ Name.reserved.toFinset).card ∧
      (∀ name : Name,
        (∃ text ∈ Name.reserved ++ texts, table.Named text name) ↔ name.index < table.size) ∧
      (∀ entry ∈ Name.reservedNames, table.Named entry.2 entry.1) ∧
      (∀ name : Name, table.size ≤ name.index → table.getText name = "") := by
  rw [← card_reserved_union] at hroom ⊢
  obtain ⟨names, table, hrun⟩ := exists_internEach hroom
  have hnamed := named_of_internEach hrun
  have htexts := textSet_of_internEach hrun
  refine ⟨names, table, hrun, ?_, ?_, ?_, ?_, ?_, ?_⟩
  · rintro ⟨text, name⟩ hp ⟨other, name'⟩ hq
    exact (List.forall₂_zip hnamed hp).eq_iff (List.forall₂_zip hnamed hq)
  · intro more answers later hlater
    exact hnamed.imp fun _ _ => Named.mono (extends_of_internEach hlater)
  · rw [← card_textSet, htexts]
  · intro name
    rw [← exists_named_iff]
    constructor
    · rintro ⟨text, -, h⟩
      exact ⟨text, h⟩
    · rintro ⟨text, h⟩
      -- Nothing has a name but what was reserved or interned.
      have hmem : text ∈ table.textSet := mem_textSet.mpr ⟨name, h⟩
      rw [htexts, textSet_initial, ← List.toFinset_append, List.mem_toFinset] at hmem
      exact ⟨text, hmem, h⟩
  · intro entry hentry
    exact (named_initial hentry).mono (extends_of_internEach hrun)
  · intro name
    exact getText_of_size_le

/-- A new text gets the position behind the reserved ones, a reserved text has its reserved name,
    and the new text keeps its name when it is met again. -/
theorem interning_stable_sample :
    14 + (["x", "java/util/Date", "x"].toFinset \ Name.reserved.toFinset).card ≤ UInt32.size ∧
      ∃ first second third table,
        initial.internEach ["x", "java/util/Date", "x"] = .ok ([first, second, third], table) ∧
          first = third ∧ first ≠ second ∧ second = .dateClass ∧ table.getText first = "x" ∧
          table.size = 15 ∧ table.getText ⟨15⟩ = "" := by
  have hcard : (["x", "java/util/Date", "x"].toFinset \ Name.reserved.toFinset).card = 1 := by
    decide
  have hroom : 14 + (["x", "java/util/Date", "x"].toFinset \ Name.reserved.toFinset).card
      ≤ UInt32.size := by
    rw [hcard]
    decide
  obtain ⟨names, table, hrun, -, hkept, hsize, -, hreserved, hbeyond⟩ := interning_stable _ hroom
  rw [hcard] at hsize
  have hnamed := hkept [] [] table rfl
  cases hnamed with | @cons _ first _ _ hfirst hnamed =>
  cases hnamed with | @cons _ second _ _ hsecond hnamed =>
  cases hnamed with | @cons _ third _ _ hthird hnamed =>
  cases hnamed
  have hdate : table.Named "java/util/Date" .dateClass :=
    hreserved (.dateClass, "java/util/Date") (by decide)
  refine ⟨hroom, first, second, third, table, hrun, (hfirst.eq_iff hthird).mpr rfl, ?_,
    (hsecond.eq_iff hdate).mpr rfl, hfirst.getText_eq, hsize, hbeyond ⟨15⟩ ?_⟩
  · rw [Ne, hfirst.eq_iff hsecond]
    decide
  · rw [hsize]
    decide

end NameTable

end ValueGraph
