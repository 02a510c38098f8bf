/-
  ValueGraph.Graph.Extends

  Graphs only grow: `Extends g h` says that everything stored in `g` is stored
  in `h`, at the same place.  It is a preorder, and what can be read from `g`
  reads the same from `h` (`node_eq_ok`, `args_eq_ok`).  Storing a node or an
  argument list extends a graph, and what was stored can be read back
  (`node_addNode`, `args_addEntries`).
-/
import ValueGraph.Graph.Edit

namespace ValueGraph.Graph

/-- Everything stored in `g` is stored in `h`, at the same place. -/
structure Extends (g h : Graph) : Prop where
  nodes : g.nodes.toList <+: h.nodes.toList
  entries : g.entries.toList <+: h.entries.toList

namespace Extends

theorem refl (g : Graph) : Extends g g := ⟨List.prefix_rfl, List.prefix_rfl⟩

theorem trans {g h k : Graph} (gh : Extends g h) (hk : Extends h k) : Extends g k :=
  ⟨gh.nodes.trans hk.nodes, gh.entries.trans hk.entries⟩

theorem size_le {g h : Graph} (grown : Extends g h) : g.size ≤ h.size := by
  simpa [size] using grown.nodes.length_le

theorem addNode (g : Graph) (node : Node) : Extends g (g.addNode node) :=
  ⟨by simp [Graph.addNode], List.prefix_rfl⟩

theorem addEntries (g : Graph) (ids : List NodeId) : Extends g (g.addEntries ids) :=
  ⟨List.prefix_rfl, by simp [Graph.addEntries]⟩

/-- A stored node stays where it is. -/
theorem node_eq_ok {g h : Graph} (grown : Extends g h) {id : NodeId} {node : Node}
    (read : g.node id = .ok node) : h.node id = .ok node := by
  obtain ⟨added, nodes_eq⟩ := grown.nodes
  simp only [Graph.node, ← Array.getElem?_toList] at read ⊢
  split at read
  case h_2 => cases read
  case h_1 stored found =>
    cases read
    have inside : id.index < g.nodes.toList.length := (List.getElem?_eq_some_iff.mp found).1
    rw [← nodes_eq, List.getElem?_append_left inside, found]

/-- A stored argument list stays where it is. -/
theorem args_eq_ok {g h : Graph} (grown : Extends g h) {span : Span} {ids : List NodeId}
    (read : g.args span = .ok ids) : h.args span = .ok ids := by
  obtain ⟨added, entries_eq⟩ := grown.entries
  unfold Graph.args at read ⊢
  by_cases empty : span.isEmpty
  · rwa [if_pos empty] at read ⊢
  · rw [if_neg empty] at read ⊢
    by_cases inside : span.stop ≤ g.entries.size
    · rw [if_pos inside] at read
      have length_eq := congrArg List.length entries_eq
      simp only [List.length_append, Array.length_toList] at length_eq
      have start_le : span.start.toNat ≤ g.entries.toList.length := by
        simp only [Span.stop] at inside
        simp only [Array.length_toList]
        omega
      have stop_le : span.stop - span.start.toNat
          ≤ (g.entries.toList.drop span.start.toNat).length := by
        simp only [List.length_drop, Array.length_toList]
        omega
      rw [if_pos (by omega), ← read, Array.toList_extract, Array.toList_extract, ← entries_eq,
        List.extract_eq_take_drop, List.extract_eq_take_drop,
        List.drop_append_of_le_length start_le, List.take_append_of_le_length stop_le]
    · rw [if_neg inside] at read
      cases read

end Extends

/-! ## Reading back -/

theorem node_addNode {g : Graph} (room : g.size < UInt32.size) (node : Node) :
    (g.addNode node).node ⟨.ofNat g.size⟩ = .ok node := by
  have index_eq : (⟨.ofNat g.size⟩ : NodeId).index = g.nodes.size :=
    UInt32.toNat_ofNat_of_lt' room
  simp [Graph.node, addNode, index_eq]

theorem args_addEntries {g : Graph} (room : g.entries.size < UInt32.size) {ids : List NodeId}
    (short : ids.length < UInt16.size) :
    (g.addEntries ids).args ⟨.ofNat g.entries.size, .ofNat ids.length⟩ = .ok ids := by
  have start_eq : (UInt32.ofNat g.entries.size).toNat = g.entries.size :=
    UInt32.toNat_ofNat_of_lt' room
  have length_eq : (UInt16.ofNat ids.length).toNat = ids.length :=
    UInt16.toNat_ofNat_of_lt' short
  cases ids with
  | nil => rfl
  | cons first rest =>
    have full : (⟨.ofNat g.entries.size, .ofNat (first :: rest).length⟩ : Span).isEmpty
        = false := by
      rw [Span.isEmpty, beq_eq_false_iff_ne, Ne, ← UInt16.toNat_inj, length_eq]
      simp
    have toList_eq : (g.addEntries (first :: rest)).entries.toList
        = g.entries.toList ++ first :: rest := Array.toList_appendList
    have size_eq : (g.addEntries (first :: rest)).entries.size
        = g.entries.size + (first :: rest).length := by
      rw [← Array.length_toList, toList_eq, List.length_append, Array.length_toList]
    simp only [args, full, Span.stop, Span.size, start_eq, length_eq, size_eq]
    simp [toList_eq, List.extract_eq_take_drop]

end ValueGraph.Graph
