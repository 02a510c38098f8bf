/-
  ValueGraph.Graph.Handlers

  Case analysis on a node with a fallback for each family of kinds.  A handler
  that is not given falls back: a literal to `constant`, a call to `call`, these
  two and every other kind to `other`.
-/
import ValueGraph.Graph.Basic

namespace ValueGraph

/-- What to do with a node of each kind.  Every handler gets the node's identifier, and the parts
    of the node if it is for one kind only. -/
structure Handlers (m : Type → Type) (α : Type) where
  other : NodeId → m α
  constant : NodeId → m α := other
  int : NodeId → Int32 → m α := fun id _ => constant id
  long : NodeId → Int64 → m α := fun id _ => constant id
  double : NodeId → UInt64 → m α := fun id _ => constant id
  str : NodeId → Name → m α := fun id _ => constant id
  null : NodeId → m α := constant
  arg : NodeId → UInt16 → m α := fun id _ => other id
  this : NodeId → m α := other
  comparison : NodeId → RelOp → NodeId → NodeId → m α := fun id _ _ _ => other id
  arithmetic : NodeId → ArithOp → NodeId → NodeId → m α := fun id _ _ _ => other id
  negation : NodeId → NodeId → m α := fun id _ => other id
  call : NodeId → Signature → Span → m α := fun id _ _ => other id
  virtualCall : NodeId → Signature → NodeId → Span → m α := fun id sig _ args => call id sig args
  staticCall : NodeId → Signature → Span → m α := call

namespace Handlers

variable {m : Type → Type} {α : Type}

/-- Runs the handler for the kind of a node. -/
def run (handlers : Handlers m α) (id : NodeId) : Kind → m α
  | .leaf (.int value) => handlers.int id value
  | .leaf (.long value) => handlers.long id value
  | .leaf (.double bits) => handlers.double id bits
  | .leaf (.str text) => handlers.str id text
  | .leaf .null => handlers.null id
  | .leaf (.arg position) => handlers.arg id position
  | .leaf .this => handlers.this id
  | .comparison op left right => handlers.comparison id op left right
  | .arithmetic op left right => handlers.arithmetic id op left right
  | .negation operand => handlers.negation id operand
  | .virtualCall sig receiver args => handlers.virtualCall id sig receiver args
  | .staticCall sig args => handlers.staticCall id sig args

/-- Runs the handler for the node stored under an identifier. -/
def handle (handlers : Handlers m α) (g : Graph) (id : NodeId) : Except Fault (m α) :=
  (handlers.run id ·.kind) <$> g.node id

end Handlers

end ValueGraph
