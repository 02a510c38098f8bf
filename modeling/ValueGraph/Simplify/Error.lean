/-
  ValueGraph.Simplify.Error

  The ways in which a simplification run has no result.
-/
import ValueGraph.NodeId
import ValueGraph.Operator.Code

namespace ValueGraph

/-- Why a run has no result. -/
inductive RunError where
  /-- The graph came with a code that stands for no operator. -/
  | corrupted (unknown : UnknownOperator)
  /-- The root names no stored node. -/
  | unknownRoot (id : NodeId)
  /-- The passes that the settings allow were not enough. -/
  | unsettled (passes : UInt32)
deriving DecidableEq

/-- The message of an error. -/
def RunError.message : RunError → String
  | corrupted unknown => "corrupted value graph: " ++ unknown.message
  | unknownRoot id => "root " ++ id.describe ++ " is not a node of this arena"
  | unsettled passes =>
    "no fixed point after " ++ toString passes.toNat ++ " simplification passes"

end ValueGraph
