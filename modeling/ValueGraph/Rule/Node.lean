/-
  ValueGraph.Rule.Node

  The one rule, if any, that applies to a node as it stands.  Operands and
  arguments are taken as they are, and the replacement is not looked at again.
-/
import ValueGraph.Graph.Handlers
import ValueGraph.Rule.Comparison
import ValueGraph.Rule.Method

namespace ValueGraph

/-- The rules that a replacement can come from. -/
inductive RuleName where
  | comparison
  | method
deriving DecidableEq

/-- The text of a rule's name in reports. -/
def RuleName.text : RuleName → String
  | comparison => "comparison"
  | method => "comparison_method"

/-- What is to stand for a node, and by which rule. -/
structure Firing where
  rule : RuleName
  replacement : Replacement
deriving DecidableEq

/-- The rules by kind of node: comparisons and calls on a receiver have one, other kinds none. -/
def Graph.ruleHandlers (g : Graph) (table : MethodTable) (groups : RuleGroups) :
    Handlers (Except Fault) (Option Firing) where
  other _ := .ok none
  comparison _ op left right :=
    (·.map (⟨.comparison, ·⟩)) <$> g.comparisonRule groups op left right
  virtualCall _ sig receiver args :=
    if groups.methods then
      (·.map (⟨.method, ·⟩)) <$> g.methodRule table sig receiver args
    else
      .ok none

/-- The rule that applies to the node under an identifier. -/
def Graph.nodeRule (g : Graph) (table : MethodTable) (groups : RuleGroups) (id : NodeId) :
    Except Fault (Option Firing) := do
  (g.ruleHandlers table groups).run id (← g.node id).kind

namespace Graph

variable {g : Graph} {id : NodeId} {ty : Ty}

theorem nodeRule_comparison {op : RelOp} {left right : NodeId}
    (hnode : g.node id = .ok ⟨.comparison op left right, ty⟩) (table : MethodTable)
    (groups : RuleGroups) :
    g.nodeRule table groups id
      = (·.map (⟨.comparison, ·⟩)) <$> g.comparisonRule groups op left right := by
  rw [nodeRule, hnode]
  rfl

theorem nodeRule_virtualCall {sig : Signature} {receiver : NodeId} {args : Span}
    (hnode : g.node id = .ok ⟨.virtualCall sig receiver args, ty⟩) (table : MethodTable)
    (groups : RuleGroups) :
    g.nodeRule table groups id
      = if groups.methods then
          (·.map (⟨.method, ·⟩)) <$> g.methodRule table sig receiver args
        else
          .ok none := by
  rw [nodeRule, hnode]
  rfl

end Graph

end ValueGraph
