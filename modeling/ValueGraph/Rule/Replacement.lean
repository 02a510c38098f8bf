/-
  ValueGraph.Rule.Replacement

  What a rule answers.  A rule only reads the graph; it says which
  value may stand for a node, and that value is either stored already or one
  new node.
-/
import ValueGraph.Graph.Edit

namespace ValueGraph

/-- A value that may stand for a node. -/
inductive Replacement where
  /-- A node that is stored already. -/
  | stored (id : NodeId)
  /-- A node that has to be stored first. -/
  | fresh (node : Node)
deriving DecidableEq

/-- Stores a replacement as far as it is new. -/
def Replacement.place : Replacement → Edit NodeId
  | stored id => pure id
  | fresh node => Graph.push node

/-- An operand that a rule looks into. -/
structure Operand where
  id : NodeId
  node : Node

/-- Reads an operand. -/
def Graph.operand (g : Graph) (id : NodeId) : Except Fault Operand :=
  (⟨id, ·⟩) <$> g.node id

end ValueGraph
