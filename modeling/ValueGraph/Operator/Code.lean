/-
  ValueGraph.Operator.Code

  The numeric codes of operators.  A producer of graphs hands operators over
  by code; a code that stands for no operator is refused.
-/

namespace ValueGraph

/-- A code that stands for no operator of its family. -/
inductive UnknownOperator where
  | relational (code : UInt8)
  | arithmetic (code : UInt8)
deriving DecidableEq

/-- The message of a refused code. -/
def UnknownOperator.message : UnknownOperator → String
  | relational code => "unknown comparison operator code " ++ toString code.toNat
  | arithmetic code => "unknown math operator code " ++ toString code.toNat

end ValueGraph
