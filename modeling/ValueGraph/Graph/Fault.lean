/-
  ValueGraph.Graph.Fault

  The ways in which an operation on a graph can come to a stop.
-/
import ValueGraph.NodeId

namespace ValueGraph

/-- Why an operation on a graph cannot go on. -/
inductive Fault where
  /-- No node is stored under the identifier. -/
  | missingNode (id : NodeId)
  /-- The span reaches beyond the argument storage. -/
  | missingArguments (span : Span)
  /-- The next node would have a position that no identifier can name. -/
  | tooManyNodes (count : Nat)
  /-- The next argument list would begin where no span can. -/
  | tooManyEntries (count : Nat)
  /-- The argument list is longer than a span can be. -/
  | tooManyArguments (count : Nat)
  /-- The graph below a node has no bottom. -/
  | cyclic
deriving DecidableEq

/-- The message of a fault that comes from a limit of the graph; a fault that comes from reading
    what is not there has none. -/
def Fault.message? : Fault → Option String
  | tooManyNodes count =>
    some ("too many value nodes: " ++ toString count ++ " exceeds u32::MAX")
  | tooManyEntries count =>
    some ("too many value list entries: " ++ toString count ++ " exceeds u32::MAX")
  | tooManyArguments count =>
    some ("argument list too long: " ++ toString count ++ " exceeds u16::MAX")
  | missingNode _ | missingArguments _ | cyclic => none

end ValueGraph
