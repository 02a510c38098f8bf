/-
  ValueGraph.Simplify.Event

  What a simplification run reports while it runs.
-/
import ValueGraph.Rule.Node

namespace ValueGraph

/-- A step of a run, in the order of happening. -/
inductive Event where
  /-- A run begins at the root, with the pass limit of its settings. -/
  | started (root : NodeId) (passLimit : UInt32)
  /-- A rule put one node in the place of another. -/
  | replaced (rule : RuleName) (source target : NodeId)
  /-- A pass is over; it replaced and stored so many nodes. -/
  | passed (pass : Nat) (replaced : Nat) (stored : Nat)
deriving DecidableEq

end ValueGraph
