/-
  ValueGraph.Node

  The nodes of a value graph: leaves, operators over earlier nodes, and calls
  whose arguments lie in a span of the graph's argument storage.
-/
import ValueGraph.NodeId
import ValueGraph.Operator.Arithmetic
import ValueGraph.Operator.Relational
import ValueGraph.Signature
import ValueGraph.Ty

namespace ValueGraph

/-- A value without operands. -/
inductive Leaf where
  /-- A 32-bit integer literal; truth values are such literals too, 0 and 1. -/
  | int (value : Int32)
  | long (value : Int64)
  /-- A double literal, by its IEEE 754 bits. -/
  | double (bits : UInt64)
  | str (text : Name)
  | null
  /-- A parameter of the analysed method, by position. -/
  | arg (position : UInt16)
  /-- The receiver of the analysed method. -/
  | this
deriving DecidableEq, Inhabited

/-- What a node computes, from the nodes that its identifiers name. -/
inductive Kind where
  | leaf (value : Leaf)
  | comparison (op : RelOp) (left right : NodeId)
  | arithmetic (op : ArithOp) (left right : NodeId)
  | negation (operand : NodeId)
  /-- A call on a receiver. -/
  | virtualCall (sig : Signature) (receiver : NodeId) (args : Span)
  | staticCall (sig : Signature) (args : Span)
deriving DecidableEq, Inhabited

/-- A node: what it computes and the static type of the result. -/
structure Node where
  kind : Kind
  ty : Ty
deriving DecidableEq, Inhabited

namespace Node

/-- An integer literal. -/
def int (value : Int32) : Node := ⟨.leaf (.int value), .int⟩

/-- A truth value as the literal that stands for it. -/
def truth (value : Bool) : Node := int (if value then 1 else 0)

/-- A comparison; it is a truth value. -/
def comparison (op : RelOp) (left right : NodeId) : Node :=
  ⟨.comparison op left right, .boolean⟩

/-- A negation; it is a truth value. -/
def negation (operand : NodeId) : Node := ⟨.negation operand, .boolean⟩

/-- The value of an integer literal. -/
def intValue? (node : Node) : Option Int32 :=
  match node.kind with
  | .leaf (.int value) => some value
  | _ => none

/-- Whether the node is the integer literal zero. -/
def isIntZero (node : Node) : Bool := node.intValue? == some 0

/-- The comparison that holds exactly where this one does not. -/
def complement? (node : Node) : Option Node :=
  match node.kind with
  | .comparison op left right => some (comparison op.complement left right)
  | _ => none

end Node

end ValueGraph
