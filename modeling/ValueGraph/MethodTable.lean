/-
  ValueGraph.MethodTable

  Which methods compare their receiver with their argument, and by which
  relational operator.  A table is built from a list of entries; of several
  entries for one method the last one counts.
-/
import ValueGraph.Operator.Relational
import ValueGraph.Signature

namespace ValueGraph

/-- A table of comparing methods, each with its operator, no method twice. -/
structure MethodTable where
  entries : List (Signature × RelOp)
  nodup : (entries.map Prod.fst).Nodup

namespace MethodTable

/-- The table without methods. -/
def empty : MethodTable := ⟨[], .nil⟩

/-- The operator of a method, if the table has it. -/
def find? (table : MethodTable) (sig : Signature) : Option RelOp := table.entries.lookup sig

/-- The number of methods. -/
def size (table : MethodTable) : Nat := table.entries.length

/-- Whether the table has no methods. -/
def isEmpty (table : MethodTable) : Bool := table.entries.isEmpty

/-- The entries of other methods than `sig`. -/
def others (sig : Signature) (entries : List (Signature × RelOp)) : List (Signature × RelOp) :=
  entries.filter fun entry => entry.1 != sig

/-- Sets the operator of a method, in place of the one it had. -/
def insert (table : MethodTable) (sig : Signature) (op : RelOp) : MethodTable where
  entries := others sig table.entries ++ [(sig, op)]
  nodup := by
    rw [List.map_append, List.map_cons, List.map_nil, List.nodup_append]
    refine ⟨?_, by simp, ?_⟩
    · exact table.nodup.sublist (List.filter_sublist.map Prod.fst)
    · intro other present new memberNew same
      simp only [List.mem_singleton] at memberNew
      subst same memberNew
      obtain ⟨entry, kept, rfl⟩ := List.mem_map.mp present
      simp [others] at kept

/-- The table of a list of entries; a later entry replaces an earlier one. -/
def ofEntries (entries : List (Signature × RelOp)) : MethodTable :=
  entries.foldl (fun table entry => table.insert entry.1 entry.2) empty

/-- The methods that the library knows to compare. -/
def standardEntries : List (Signature × RelOp) :=
  [(.stringEquals, .eq),
    (.dateEquals, .eq), (.dateBefore, .lt), (.dateAfter, .gt),
    (.calendarEquals, .eq), (.calendarBefore, .lt), (.calendarAfter, .gt),
    (.sqlDateEquals, .eq), (.sqlDateBefore, .lt), (.sqlDateAfter, .gt),
    (.sqlTimeEquals, .eq), (.sqlTimeBefore, .lt), (.sqlTimeAfter, .gt),
    (.sqlTimestampEquals, .eq), (.sqlTimestampBefore, .lt), (.sqlTimestampAfter, .gt)]

/-- The table that simplification uses unless it is given another. -/
def standard : MethodTable := ofEntries standardEntries

/-! ## Look-up -/

theorem lookup_others_self (sig : Signature) (entries : List (Signature × RelOp)) :
    (others sig entries).lookup sig = none := by
  rw [List.lookup_eq_none_iff]
  intro entry kept
  simp only [others, List.mem_filter, bne_iff_ne] at kept
  simpa using Ne.symm kept.2

theorem lookup_others_of_ne {sig other : Signature} (ne : other ≠ sig)
    (entries : List (Signature × RelOp)) :
    (others sig entries).lookup other = entries.lookup other := by
  induction entries with
  | nil => rfl
  | cons entry rest ih =>
    obtain ⟨key, op⟩ := entry
    simp only [others] at ih
    by_cases same : key = sig
    · subst same
      have apart : (other == key) = false := by simpa using ne
      simp [others, List.lookup_cons, apart, ih]
    · simp [others, same, List.lookup_cons, ih]

/-- A table finds exactly the operators of its entries. -/
theorem find?_eq_some_iff {table : MethodTable} {sig : Signature} {op : RelOp} :
    table.find? sig = some op ↔ (sig, op) ∈ table.entries := by
  rw [find?, List.lookup_eq_some_iff]
  constructor
  · rintro ⟨before, after, entries_eq, -⟩
    rw [entries_eq]
    exact List.mem_append_right before (List.mem_cons_self ..)
  · intro present
    obtain ⟨before, after, entries_eq⟩ := List.append_of_mem present
    refine ⟨before, after, entries_eq, fun entry earlier => ?_⟩
    -- An earlier entry of the method would be a second one.
    have nodup := table.nodup
    rw [entries_eq, List.map_append, List.nodup_append] at nodup
    have ne : entry.1 ≠ sig :=
      nodup.2.2 entry.1 (List.mem_map_of_mem earlier) sig (List.mem_cons_self ..)
    simpa using Ne.symm ne

theorem find?_insert (table : MethodTable) (sig other : Signature) (op : RelOp) :
    (table.insert sig op).find? other = if other = sig then some op else table.find? other := by
  by_cases same : other = sig
  · subst same
    simp [find?, insert, List.lookup_append, lookup_others_self]
  · have apart : (other == sig) = false := by simpa using same
    simp [find?, insert, List.lookup_append, lookup_others_of_ne same, same, List.lookup_cons,
      apart]

end MethodTable

end ValueGraph
