/-
  ValueGraph.NameTable

  A table of names: every text that was interned has one name, and the table
  finds the name of a text and the text of a name.

  The index is part of the table together with the fact that it is exact, so a
  text has at most one name, and that name gives the text back.
-/
import Std.Data.TreeMap.Lemmas
import ValueGraph.Name

namespace ValueGraph

/-- Texts by position, with an index that finds the position of a text. -/
structure NameTable where
  texts : Array String
  index : Std.TreeMap String Name
  /-- The index holds exactly the positions of the texts. -/
  index_iff : ∀ (text : String) (name : Name),
    index[text]? = some name ↔ texts[name.index]? = some text
  /-- No text lies beyond the last position that a name can stand for. -/
  size_le : texts.size ≤ UInt32.size

namespace NameTable

/-- A table that cannot take a new text: it already holds `count` texts. -/
structure Full where
  count : Nat

/-- The message of a full table. -/
def Full.message (full : Full) : String :=
  "interner exceeded capacity: " ++ toString full.count ++ " strings, max is 4294967295"

/-- The number of texts. -/
def size (table : NameTable) : Nat := table.texts.size

/-- A table holds no text; never so for a table that starts with the reserved names. -/
def isEmpty (table : NameTable) : Bool := table.texts.isEmpty

/-- The name of a text, if it has one. -/
def find? (table : NameTable) (text : String) : Option Name := table.index[text]?

/-- The text of a name; a name beyond the table has the empty text. -/
def getText (table : NameTable) (name : Name) : String := table.texts[name.index]?.getD ""

theorem find?_eq_some_iff {table : NameTable} {text : String} {name : Name} :
    table.find? text = some name ↔ table.texts[name.index]? = some text :=
  table.index_iff text name

theorem getText_of_find? {table : NameTable} {text : String} {name : Name}
    (found : table.find? text = some name) : table.getText name = text := by
  rw [find?_eq_some_iff] at found
  simp [getText, found]

/-- The name that the next new text gets. -/
def next (table : NameTable) : Name := ⟨.ofNat table.texts.size⟩

theorem index_next {table : NameTable} (room : table.size < UInt32.size) :
    table.next.index = table.size :=
  UInt32.toNat_ofNat_of_lt' room

/-- Appends a text that is not in the table. -/
def append (table : NameTable) (text : String) (fresh : table.find? text = none)
    (room : table.size < UInt32.size) : NameTable where
  texts := table.texts.push text
  index := table.index.insert text table.next
  index_iff := by
    intro other name
    have absent : ∀ name : Name, table.texts[name.index]? ≠ some text := by
      intro name found
      rw [← table.index_iff] at found
      simp [find?, found] at fresh
    have next_iff : table.next = name ↔ name.index = table.texts.size := by
      rw [← Name.index_inj, index_next room, size, eq_comm]
    rw [Std.TreeMap.getElem?_insert, Array.getElem?_push]
    by_cases same : text = other
    · subst same
      by_cases last : name.index = table.texts.size
      · simp [next_iff, last]
      · simp [next_iff, last, absent]
    · have differs : compare text other ≠ .eq :=
        fun equal => same (Std.LawfulEqOrd.eq_of_compare equal)
      by_cases last : name.index = table.texts.size
      · simp [differs, last, same, table.index_iff]
      · simp [differs, last, table.index_iff]
  size_le := by
    rw [Array.size_push]
    exact room

/-- The name of a text: the one it has, or else the next position. -/
def intern (table : NameTable) (text : String) : Except Full (Name × NameTable) :=
  match found : table.find? text with
  | some name => .ok (name, table)
  | none =>
    if room : table.size < UInt32.size then
      .ok (table.next, table.append text found room)
    else
      .error ⟨table.size⟩

/-- The table without any text. -/
def empty : NameTable where
  texts := #[]
  index := ∅
  index_iff := by simp
  size_le := by simp

/-- Interns every text of a list, as far as there is room. -/
def internAll (table : NameTable) : List String → NameTable
  | [] => table
  | text :: rest =>
    match table.intern text with
    | .ok (_, larger) => larger.internAll rest
    | .error _ => table

/-- The table that every program starts with: the reserved names. -/
def initial : NameTable := empty.internAll Name.reserved

/-- A reserved name stands for the text at its position in the list of reserved texts. -/
theorem texts_initial : initial.texts.toList = Name.reserved := by decide +kernel

end NameTable

end ValueGraph
