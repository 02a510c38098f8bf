/-
  ValueGraph.Proofs.Graph.Rendering

  The text of a node, while the graph and the table of names grow.

  A node that stands for a term has a text in its graph, and the same text in
  every larger graph: what the text shows does not change (`exists_displayed`).  The
  text depends on the names in the nodes that are reached, and if these are
  interned (`Interned`) it does not change with the table of names either
  (`render_grown`).

  What a text shows need not be the term that the node stands for.  A node in the
  last place of a full graph has the invalid identifier, and no text ever looks
  below that.
-/
import ValueGraph.Proofs.Graph.Unfolding
import ValueGraph.Proofs.Name.Interning
import ValueGraph.Proofs.Term.Rendering

namespace ValueGraph

/-- The names in the text of a node, apart from those of its operands. -/
def Kind.names : Kind → List Name
  | leaf value => value.names
  | virtualCall sig _ _ | staticCall sig _ => sig.renderedNames
  | comparison _ _ _ | arithmetic _ _ _ | negation _ => []

namespace Graph

variable {g : Graph} {id root : NodeId} {s t : Term} {names : NameTable}

/-- Every name in the text of a root has been interned. -/
def Interned (g : Graph) (table : NameTable) (root : NodeId) : Prop :=
  ∀ id node, g.Reaches root id → g.node id = .ok node →
    ∀ name ∈ node.kind.names, name.index < table.size

/-- What the text of a node shows, in its graph and in every larger one, if it is read to the given
    depth at least.  Its names are names of nodes that are reached. -/
structure Displays (g : Graph) (id : NodeId) (depth : Nat) (s : Term) : Prop where
  unfoldWithin_eq : ∀ h more, Extends g h → depth ≤ more → h.unfoldWithin more id = .ok s
  reaches : ∀ name ∈ s.names, ∃ low node, g.Reaches id low ∧ g.node low = .ok node ∧
    name ∈ node.kind.names

/-! ## What a text shows -/

theorem Displays.mono {depth depth' : Nat} (hdisplays : g.Displays id depth s)
    (hdepth : depth ≤ depth') : g.Displays id depth' s where
  unfoldWithin_eq h more hgrown hmore :=
    hdisplays.unfoldWithin_eq h more hgrown (Nat.le_trans hdepth hmore)
  reaches := hdisplays.reaches

theorem Labels.ownNames_eq {node : Node} (hlabels : Labels node s) :
    s.ownNames = node.kind.names := by
  cases hlabels <;> rfl

/-- The invalid identifier shows itself, whatever is stored. -/
theorem displays_invalid (hinvalid : id.isValid = false) : g.Displays id 1 (.unresolved id) where
  unfoldWithin_eq h more _ hmore := by
    have hmissing : ¬ h.contains id = true := by
      rw [contains, hinvalid]
      exact Bool.false_ne_true
    obtain ⟨less, rfl⟩ := Nat.exists_eq_succ_of_ne_zero (Nat.ne_of_gt hmore)
    rw [unfoldWithin, if_neg hmissing]
  reaches _ hname := nomatch hname

/-- A node with a valid identifier shows some term, if each of its operands does. -/
theorem exists_displayed_of_operands {node : Node} {ids : List NodeId} {depth : Nat}
    (hread : g.node id = .ok node) (hvalid : id.isValid = true)
    (hids : g.operandIds node.kind = .ok ids)
    (hoperands : ∀ child ∈ ids, ∃ o, g.Displays child depth o) :
    ∃ s, g.Displays id (depth + 1) s := by
  -- The node shows its own label over what its operands show.
  obtain ⟨shown, hshown⟩ := exists_forall₂ hoperands
  obtain ⟨s, hlabels, rfl⟩ := exists_labels hids hshown.length_eq.symm
  refine ⟨s, fun h more hgrown hmore => ?_, fun name hname => ?_⟩
  · obtain ⟨less, rfl⟩ : ∃ less, more = less + 1 := ⟨more - 1, by omega⟩
    have hinside := Nat.lt_of_lt_of_le (index_lt_of_node hread) hgrown.size_le
    have hin : h.contains id = true := by
      rw [contains, hvalid, Bool.true_and, decide_eq_true hinside]
    refine unfoldWithin_succ hin (hgrown.node_eq_ok hread) (operandIds_mono hgrown hids) hlabels ?_
    refine hshown.imp fun child o hdisplays => ?_
    exact hdisplays.unfoldWithin_eq h less hgrown (by omega)
  · rcases Term.mem_names_iff.mp hname with hname | ⟨o, ho, hname⟩
    · rw [hlabels.ownNames_eq] at hname
      exact ⟨id, node, g.reaches_self id, hread, hname⟩
    · -- A name of an operand is one of a node that the operand reaches.
      obtain ⟨child, hchild, hdisplays⟩ := exists_of_mem_forall₂ hshown ho
      obtain ⟨low, node', hlow, hread', hname⟩ := hdisplays.reaches name hname
      have hoperand : g.IsOperand id child := ⟨ids, (children_of_node hread).trans hids, hchild⟩
      exact ⟨low, node', hoperand.reaches.trans hlow, hread', hname⟩

/-- A node that stands for a term shows some term, in its graph and in every larger one. -/
theorem Unfolds.exists_displayed (hid : g.Unfolds id t) : ∃ s, g.Displays id t.height s := by
  induction t using Term.induct generalizing id with
  | node t ih =>
      rw [Term.height_eq]
      cases hvalid : id.isValid with
      | false =>
          -- Nothing below is looked at, so there is no need of the induction hypothesis.
          exact ⟨.unresolved id, (displays_invalid hvalid).mono (Nat.le_add_left ..)⟩
      | true =>
          obtain ⟨hread, hspells⟩ := hid
          obtain ⟨ids, hids, hall⟩ := hspells.operandIds
          refine exists_displayed_of_operands hread hvalid hids fun child hchild => ?_
          obtain ⟨o, ho, hunfolds⟩ := exists_of_mem_forall₂ hall.flip hchild
          obtain ⟨s, hdisplays⟩ := ih o ho hunfolds
          exact ⟨s, hdisplays.mono (Term.height_le_heightOfAll ho)⟩

/-! ## Growth -/

/-- The text of a root whose names are interned is the same in every larger graph, and with every
    larger table of names. -/
theorem render_grown (hroot : g.Unfolds root t) (hinterned : g.Interned names root) :
    ∃ text, ∀ h table, Extends g h → names.Extends table → h.render table root = .ok text := by
  obtain ⟨s, hdisplays⟩ := hroot.exists_displayed
  refine ⟨s.render names, fun h table hgrown hnames => ?_⟩
  -- Unfolding goes deep enough in the first graph, and deeper in a larger one.
  have hdeep : t.height ≤ h.size + 1 := by
    have hheight := hroot.height_le
    have hsize := hgrown.size_le
    omega
  have hunfold : h.unfold root = .ok s := hdisplays.unfoldWithin_eq h (h.size + 1) hgrown hdeep
  have hagree : ∀ name ∈ s.names, table.getText name = names.getText name := by
    intro name hname
    obtain ⟨low, node, hlow, hread, hmem⟩ := hdisplays.reaches name hname
    exact hnames.getText_eq (hinterned low node hlow hread name hmem)
  rw [render, hunfold, ← Term.render_congr hagree]
  rfl

end Graph

end ValueGraph
