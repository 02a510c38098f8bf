/-
  ValueGraph.Term.Basic

  Terms: what a node of a graph says when every identifier below it is replaced
  by what that identifier says.  Sharing is gone, and so is every position.
-/
import ValueGraph.Node

namespace ValueGraph

/-- A typed tree. -/
inductive Term where
  | leaf (value : Leaf) (ty : Ty)
  | comparison (op : RelOp) (left right : Term) (ty : Ty)
  | arithmetic (op : ArithOp) (left right : Term) (ty : Ty)
  | negation (operand : Term) (ty : Ty)
  | virtualCall (sig : Signature) (receiver : Term) (args : List Term) (ty : Ty)
  | staticCall (sig : Signature) (args : List Term) (ty : Ty)
  /-- An identifier that names no stored node. -/
  | unresolved (id : NodeId)
deriving Inhabited

end ValueGraph
