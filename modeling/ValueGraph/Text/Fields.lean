/-
  ValueGraph.Text.Fields

  The parts of a text between separators.  A text has one more part than it has
  separators, so the empty text has one part, the empty one.
-/

namespace ValueGraph.Text

/-- The parts of a text between the separators, from left to right. -/
def fields (separator : Char) : List Char → List (List Char)
  | [] => [[]]
  | c :: rest =>
    if c = separator then [] :: fields separator rest
    else (fields separator rest).modifyHead (c :: ·)

theorem fields_ne_nil (separator : Char) (text : List Char) : fields separator text ≠ [] := by
  induction text with
  | nil => simp [fields]
  | cons c rest ih => by_cases same : c = separator <;> simp [fields, same, ih]

/-- Joining two texts by a separator joins their parts. -/
theorem fields_append (separator : Char) (before after : List Char) :
    fields separator (before ++ separator :: after)
      = fields separator before ++ fields separator after := by
  induction before with
  | nil => simp [fields]
  | cons c rest ih =>
    by_cases same : c = separator
    · simp [fields, same, ih]
    · obtain ⟨first, others, parts_eq⟩ := List.exists_cons_of_ne_nil (fields_ne_nil separator rest)
      simp [fields, same, ih, parts_eq]

/-- No part holds a separator. -/
theorem not_mem_of_mem_fields {separator : Char} {text part : List Char}
    (member : part ∈ fields separator text) : separator ∉ part := by
  induction text generalizing part with
  | nil => simp_all [fields]
  | cons c rest ih =>
    obtain ⟨first, others, parts_eq⟩ := List.exists_cons_of_ne_nil (fields_ne_nil separator rest)
    rw [parts_eq] at ih
    by_cases same : c = separator
    · simp only [fields, same, if_pos, parts_eq, List.mem_cons] at member
      rcases member with rfl | earlier
      · simp
      · exact ih (List.mem_cons.mpr earlier)
    · simp only [fields, if_neg same, parts_eq, List.modifyHead_cons, List.mem_cons] at member
      rcases member with rfl | later
      · simpa [Ne.symm same] using ih List.mem_cons_self
      · exact ih (List.mem_cons_of_mem first later)

end ValueGraph.Text
