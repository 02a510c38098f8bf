/-
  ValueGraph.Rule.Comparison

  The rules for comparisons: decide an equality of literals, put a zero on the
  right, and read a comparison with zero without the zero.
-/
import ValueGraph.Rule.Zero
import ValueGraph.RuleGroups

namespace ValueGraph

/-- The truth value of an equality or inequality of two integer literals.  An ordering of literals
    is left as it is. -/
def foldLiterals? (op : RelOp) (left right : Operand) : Option Replacement :=
  match op.isEquality, left.node.intValue?, right.node.intValue? with
  | true, some l, some r => some (.fresh (.truth (op.holds l.toInt r.toInt)))
  | _, _, _ => none

/-- A comparison with zero on either side, without the zero.  Where that is not possible, a zero on
    the left changes sides; a comparison of zero with zero has no side to change to. -/
def dropZero? (op : RelOp) (left right : Operand) : Option Replacement :=
  match left.node.isIntZero, right.node.isIntZero with
  -- A zero may still be a truth value, if it is typed as one.
  | true, true => right.againstZero? op.converse <|> left.againstZero? op
  | true, false =>
    right.againstZero? op.converse <|> some (.fresh (.comparison op.converse right.id left.id))
  | false, true => left.againstZero? op
  | false, false => none

/-- The first rule of the chosen groups that applies to a comparison. -/
def compareRule? (groups : RuleGroups) (op : RelOp) (left right : Operand) : Option Replacement :=
  (if groups.fold then foldLiterals? op left right else none)
    <|> (if groups.zero then dropZero? op left right else none)

/-- Whether a rule of the chosen groups looks into the operands of a comparison. -/
def RuleGroups.readsOperands (groups : RuleGroups) (op : RelOp) : Bool :=
  groups.zero || (groups.fold && op.isEquality)

/-- The replacement of a comparison, if a rule of the chosen groups applies.  The operands have to
    be there only if some rule looks into them. -/
def Graph.comparisonRule (g : Graph) (groups : RuleGroups) (op : RelOp) (left right : NodeId) :
    Except Fault (Option Replacement) :=
  if groups.readsOperands op then
    return compareRule? groups op (← g.operand left) (← g.operand right)
  else
    return none

end ValueGraph
