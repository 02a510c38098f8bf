/-
  ValueGraph.Rule.Zero

  Comparisons with the integer literal zero.  A truth value is an integer that
  is 0 or 1, and a three-way compare is an integer with a sign; comparing either
  with zero says something that needs no zero.
-/
import ValueGraph.Rule.Replacement

namespace ValueGraph

namespace Operand

/-- Whether the operand is a truth value: a comparison, or anything of the boolean type. -/
def isTruth (x : Operand) : Bool := x.node.complement?.isSome || x.node.ty.isBoolean

/-- A truth value as it is. -/
def kept? (x : Operand) : Option Replacement :=
  if x.isTruth then some (.stored x.id) else none

/-- The opposite of a truth value: the complement of a comparison, the negation of any other. -/
def opposite? (x : Operand) : Option Replacement :=
  if x.isTruth then some (.fresh (x.node.complement?.getD (.negation x.id))) else none

/-- The relation between the two operands of a three-way compare. -/
def related? (op : RelOp) (x : Operand) : Option Replacement :=
  match x.node.kind with
  | .arithmetic compare left right =>
    if compare.isThreeWay then some (.fresh (.comparison op left right)) else none
  | _ => none

/-- What `x op 0` says without the zero: `ne` keeps a truth value, `eq` gives its opposite, and any
    operator on a three-way compare relates the two operands of that compare. -/
def againstZero? (op : RelOp) (x : Operand) : Option Replacement :=
  match op with
  | .ne => x.kept? <|> x.related? op
  | .eq => x.opposite? <|> x.related? op
  | .lt | .le | .gt | .ge => x.related? op

end Operand

/-- What `x op 0` says without the zero, if there is a way to say it. -/
def Graph.zeroRule (g : Graph) (op : RelOp) (x : NodeId) : Except Fault (Option Replacement) :=
  (·.againstZero? op) <$> g.operand x

end ValueGraph
