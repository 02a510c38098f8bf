/-
  ValueGraph.Graph.Basic

  A value graph: nodes in the order of storing, and the storage of argument
  lists.  Nothing checks that the identifiers in a node name stored nodes;
  reading a node or a span that is not there is a fault.
-/
import ValueGraph.Graph.Fault
import ValueGraph.Node

namespace ValueGraph

/-- Stored nodes and stored argument lists. -/
structure Graph where
  nodes : Array Node
  /-- The argument lists of all calls, end to end. -/
  entries : Array NodeId
deriving DecidableEq, Inhabited

namespace Graph

/-- The graph without nodes. -/
def empty : Graph := ⟨#[], #[]⟩

/-- The number of stored nodes. -/
def size (g : Graph) : Nat := g.nodes.size

/-- Whether no node is stored. -/
def isEmpty (g : Graph) : Bool := g.nodes.isEmpty

/-- Whether the identifier is valid and names a stored node. -/
def contains (g : Graph) (id : NodeId) : Bool := id.isValid && id.index < g.size

/-! ## Reading -/

/-- The node stored under an identifier. -/
def node (g : Graph) (id : NodeId) : Except Fault Node :=
  match g.nodes[id.index]? with
  | some node => .ok node
  | none => .error (.missingNode id)

/-- The identifiers in a span; an empty span has none, wherever it begins. -/
def args (g : Graph) (span : Span) : Except Fault (List NodeId) :=
  if span.isEmpty then
    .ok []
  else if span.stop ≤ g.entries.size then
    .ok (g.entries.extract span.start.toNat span.stop).toList
  else
    .error (.missingArguments span)

/-- The direct operands of a node, from left to right. -/
def children (g : Graph) (id : NodeId) : Except Fault (List NodeId) := do
  match (← g.node id).kind with
  | .leaf _ => return []
  | .comparison _ left right | .arithmetic _ left right => return [left, right]
  | .negation operand => return [operand]
  | .virtualCall _ receiver args => return receiver :: (← g.args args)
  | .staticCall _ args => g.args args

/-- The type of an arithmetic result: a three-way compare is an integer, and every other operator
    has the type of its left operand, which has to be there. -/
def arithmeticType (g : Graph) (op : ArithOp) (left : NodeId) : Except Fault Ty :=
  if op.isThreeWay then .ok .int else (·.ty) <$> g.node left

/-! ## Storing -/

/-- The graph with one more node. -/
def addNode (g : Graph) (node : Node) : Graph := { g with nodes := g.nodes.push node }

/-- The graph with more argument storage. -/
def addEntries (g : Graph) (ids : List NodeId) : Graph :=
  { g with entries := g.entries.appendList ids }

end Graph

end ValueGraph
