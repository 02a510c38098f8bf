/-
  ValueGraph.Proofs.Graph.Akin

  Graphs that differ at most in payloads.

  The value of a literal that is no integer, and the position of a parameter, are
  payloads: no rule looks at them.  Two nodes are akin if they are equal, or if
  they are leaves of one sort and one type with different payloads; two graphs
  are, if their nodes are, one by one, and their argument storage is the same.

  What can be read from one of two akin graphs can be read from the other, and
  what is read is akin (`Akin.node_cases`).  They stay akin when the same is stored
  in both, and what is stored then does not differ at all (`AkinWithin`).
-/
import ValueGraph.Graph.Edit

namespace ValueGraph

/-- Two leaves that differ at most in their payload. -/
inductive Leaf.Akin : Leaf → Leaf → Prop
  | same {value : Leaf} : Akin value value
  | long {a b : Int64} : Akin (.long a) (.long b)
  | double {a b : UInt64} : Akin (.double a) (.double b)
  | str {a b : Name} : Akin (.str a) (.str b)
  | arg {a b : UInt16} : Akin (.arg a) (.arg b)

/-- Two nodes that differ at most in the payload of a leaf. -/
inductive Node.Akin : Node → Node → Prop
  | same {node : Node} : Akin node node
  | leaf {a b : Leaf} {ty : Ty} : a.Akin b → Akin ⟨.leaf a, ty⟩ ⟨.leaf b, ty⟩

namespace Graph

/-- Two graphs that differ at most in the payloads of leaves. -/
structure Akin (g h : Graph) : Prop where
  size_eq : g.size = h.size
  entries_eq : g.entries = h.entries
  nodes : ∀ (i : Nat) (a b : Node), g.nodes[i]? = some a → h.nodes[i]? = some b → a.Akin b

/-- Two graphs that differ at most in the payloads of leaves among their first `stored` nodes. -/
structure AkinWithin (stored : Nat) (g h : Graph) : Prop extends g.Akin h where
  later : ∀ i, stored ≤ i → g.nodes[i]? = h.nodes[i]?

namespace Akin

variable {g h : Graph}

/-- Nothing is stored behind all nodes. -/
theorem within (hakin : g.Akin h) : g.AkinWithin g.size h where
  toAkin := hakin
  later i hi := by
    have hsize : g.nodes.size = h.nodes.size := hakin.size_eq
    rw [Array.getElem?_eq_none hi, Array.getElem?_eq_none (hsize ▸ hi)]

/-! ## Reading -/

theorem node_cases (hakin : g.Akin h) (id : NodeId) :
    (∃ a b, g.node id = .ok a ∧ h.node id = .ok b ∧ a.Akin b) ∨
      (∃ fault, g.node id = .error fault ∧ h.node id = .error fault) := by
  have hsize : g.nodes.size = h.nodes.size := hakin.size_eq
  by_cases hid : id.index < g.nodes.size
  · have hid' : id.index < h.nodes.size := hsize ▸ hid
    have hg : g.nodes[id.index]? = some g.nodes[id.index] := Array.getElem?_eq_getElem hid
    have hh : h.nodes[id.index]? = some h.nodes[id.index] := Array.getElem?_eq_getElem hid'
    refine Or.inl ⟨_, _, ?_, ?_, hakin.nodes _ _ _ hg hh⟩
    · rw [node, hg]
    · rw [node, hh]
  · have hid' : ¬ id.index < h.nodes.size := hsize ▸ hid
    have hg : g.nodes[id.index]? = none := Array.getElem?_eq_none (Nat.le_of_not_lt hid)
    have hh : h.nodes[id.index]? = none := Array.getElem?_eq_none (Nat.le_of_not_lt hid')
    refine Or.inr ⟨.missingNode id, ?_, ?_⟩
    · rw [node, hg]
    · rw [node, hh]

theorem args_eq (hakin : g.Akin h) (span : Span) : g.args span = h.args span := by
  rw [args, args, hakin.entries_eq]

theorem contains_eq (hakin : g.Akin h) (id : NodeId) : g.contains id = h.contains id := by
  rw [contains, contains, hakin.size_eq]

/-! ## Storing -/

theorem addNode (hakin : g.Akin h) (node : Node) : (g.addNode node).Akin (h.addNode node) where
  size_eq := by
    show (g.nodes.push node).size = (h.nodes.push node).size
    rw [Array.size_push, Array.size_push]
    exact congrArg (· + 1) hakin.size_eq
  entries_eq := hakin.entries_eq
  nodes i a b ha hb := by
    have hsize : g.nodes.size = h.nodes.size := hakin.size_eq
    simp only [Graph.addNode, Array.getElem?_push, hsize] at ha hb
    by_cases hlast : i = h.nodes.size
    · rw [if_pos hlast] at ha hb
      cases ha
      cases hb
      exact .same
    · rw [if_neg hlast] at ha hb
      exact hakin.nodes i a b ha hb

theorem addEntries (hakin : g.Akin h) (ids : List NodeId) :
    (g.addEntries ids).Akin (h.addEntries ids) where
  size_eq := hakin.size_eq
  entries_eq := by rw [Graph.addEntries, Graph.addEntries, hakin.entries_eq]
  nodes := hakin.nodes

end Akin

namespace AkinWithin

variable {stored : Nat} {g h : Graph}

theorem addNode (hakin : g.AkinWithin stored h) (node : Node) :
    (g.addNode node).AkinWithin stored (h.addNode node) where
  toAkin := hakin.toAkin.addNode node
  later i hi := by
    have hsize : g.nodes.size = h.nodes.size := hakin.size_eq
    simp only [Graph.addNode, Array.getElem?_push, hsize, hakin.later i hi]

theorem addEntries (hakin : g.AkinWithin stored h) (ids : List NodeId) :
    (g.addEntries ids).AkinWithin stored (h.addEntries ids) where
  toAkin := hakin.toAkin.addEntries ids
  later := hakin.later

end AkinWithin

end Graph

end ValueGraph
