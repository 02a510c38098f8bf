/-
  ValueGraph.Proofs.Term.Rendering

  What the text of a term depends on.

  A table of names comes into the text of a term only through the names in its
  string literals and the classes and methods of its calls (`Term.names`).  So
  two tables that give these names the same texts give the term the same text
  (`render_congr`).
-/
import ValueGraph.Proofs.Term.Operands
import ValueGraph.Term.Render

namespace ValueGraph

/-- The names in the text of a leaf. -/
def Leaf.names : Leaf → List Name
  | str text => [text]
  | int _ | long _ | double _ | null | arg _ | this => []

/-- The names in the text of a call: the descriptor is not written. -/
def Signature.renderedNames (sig : Signature) : List Name := [sig.owner, sig.name]

namespace Term

/-- The names that a term adds to those of its operands. -/
def ownNames : Term → List Name
  | leaf value _ => value.names
  | virtualCall sig _ _ _ | staticCall sig _ _ => sig.renderedNames
  | comparison _ _ _ _ | arithmetic _ _ _ _ | negation _ _ | unresolved _ => []

/-- The names in the text of a term. -/
def names (t : Term) : List Name := t.subterms.flatMap ownNames

theorem mem_names_iff {name : Name} {t : Term} :
    name ∈ t.names ↔ name ∈ t.ownNames ∨ ∃ s ∈ t.operands, name ∈ s.names := by
  rw [names, List.mem_flatMap]
  constructor
  · rintro ⟨s, hs, hname⟩
    rcases mem_subterms_iff.mp hs with rfl | ⟨o, ho, hs⟩
    · exact Or.inl hname
    · exact Or.inr ⟨o, ho, List.mem_flatMap.mpr ⟨s, hs, hname⟩⟩
  · rintro (hname | ⟨o, ho, hname⟩)
    · exact ⟨t, mem_subterms_self t, hname⟩
    · obtain ⟨s, hs, hname⟩ := List.mem_flatMap.mp hname
      exact ⟨s, mem_subterms_of_operand ho hs, hname⟩

/-! ## Tables that agree -/

section Agreement

variable {table table' : NameTable}

theorem leaf_render_congr {value : Leaf}
    (h : ∀ name ∈ value.names, table'.getText name = table.getText name) :
    value.render table' = value.render table := by
  cases value with
  | str text =>
      have htext := h text (List.mem_singleton_self text)
      rw [Leaf.render, Leaf.render, htext]
  | int | long | double | null | arg | this => rfl

theorem qualifiedName_congr {sig : Signature}
    (h : ∀ name ∈ sig.renderedNames, table'.getText name = table.getText name) :
    sig.qualifiedName table' = sig.qualifiedName table := by
  have howner := h sig.owner (by simp [Signature.renderedNames])
  have hname := h sig.name (by simp [Signature.renderedNames])
  rw [Signature.qualifiedName, Signature.qualifiedName, howner, hname]

theorem writeRest_congr {args : List Term}
    (h : ∀ s ∈ args, ∀ out, s.write table' out = s.write table out) (out : String) :
    writeRest table' args out = writeRest table args out := by
  induction args generalizing out with
  | nil => rfl
  | cons next rest ih =>
      have hnext := h next (List.mem_cons_self ..)
      have hrest := ih fun s hs => h s (List.mem_cons_of_mem _ hs)
      rw [writeRest, writeRest, hnext, hrest]

theorem writeArgs_congr {args : List Term}
    (h : ∀ s ∈ args, ∀ out, s.write table' out = s.write table out) (out : String) :
    writeArgs table' args out = writeArgs table args out := by
  cases args with
  | nil => rfl
  | cons first rest =>
      have hfirst := h first (List.mem_cons_self ..)
      have hrest := writeRest_congr fun s hs => h s (List.mem_cons_of_mem first hs)
      rw [writeArgs, writeArgs, hfirst, hrest]

theorem write_congr {t : Term}
    (h : ∀ name ∈ t.names, table'.getText name = table.getText name) (out : String) :
    t.write table' out = t.write table out := by
  induction t using Term.induct generalizing out with
  | node t ih =>
      -- Both tables agree on the label of the term, and by induction on the texts of its operands.
      have hown : ∀ name ∈ t.ownNames, table'.getText name = table.getText name :=
        fun name hname => h name (mem_names_iff.mpr (Or.inl hname))
      have hoperand : ∀ s ∈ t.operands, ∀ out, s.write table' out = s.write table out :=
        fun s hs => ih s hs fun name hname => h name (mem_names_iff.mpr (Or.inr ⟨s, hs, hname⟩))
      cases t with
      | leaf value ty => rw [write, write, leaf_render_congr hown]
      | comparison op left right ty | arithmetic op left right ty =>
          have hleft := hoperand left (by simp [operands])
          have hright := hoperand right (by simp [operands])
          rw [write, write, hleft, hright]
      | negation operand ty =>
          have hnegated := hoperand operand (by simp [operands])
          rw [write, write, hnegated]
      | virtualCall sig receiver args ty =>
          have hreceiver := hoperand receiver (by simp [operands])
          have hargs := writeArgs_congr fun s hs => hoperand s (List.mem_cons_of_mem receiver hs)
          rw [write, write, hreceiver, qualifiedName_congr hown, hargs]
      | staticCall sig args ty =>
          have hargs : ∀ out, writeArgs table' args out = writeArgs table args out :=
            writeArgs_congr hoperand
          rw [write, write, qualifiedName_congr hown, hargs]
      | unresolved id => rw [write, write]

/-- Two tables give a term the same text if they give its names the same texts. -/
theorem render_congr {t : Term}
    (h : ∀ name ∈ t.names, table'.getText name = table.getText name) :
    t.render table' = t.render table :=
  write_congr h ""

end Agreement

end Term

end ValueGraph
