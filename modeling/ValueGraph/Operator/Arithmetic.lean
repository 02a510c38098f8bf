/-
  ValueGraph.Operator.Arithmetic

  The arithmetic operators, their codes and names.  Three of them are three-way
  compares, whose value is an integer with the sign of left minus right.
-/
import ValueGraph.Operator.Code

namespace ValueGraph

/-- An arithmetic operator. -/
inductive ArithOp where
  | add
  | sub
  | mul
  | div
  | rem
  | bitAnd
  | bitOr
  | bitXor
  | shiftLeft
  | shiftRight
  /-- The right shift that fills with zeros. -/
  | shiftRightZero
  /-- The three-way compare of integers. -/
  | cmp
  /-- The three-way compare of floats that is -1 on an unordered pair. -/
  | cmpl
  /-- The three-way compare of floats that is 1 on an unordered pair. -/
  | cmpg
deriving DecidableEq, Inhabited

namespace ArithOp

/-- All operators, in the order of their codes. -/
def all : List ArithOp :=
  [add, sub, mul, div, rem, bitAnd, bitOr, bitXor, shiftLeft, shiftRight, shiftRightZero,
    cmp, cmpl, cmpg]

/-- The code of an operator. -/
def code : ArithOp → UInt8
  | add => 0
  | sub => 1
  | mul => 2
  | div => 3
  | rem => 4
  | bitAnd => 5
  | bitOr => 6
  | bitXor => 7
  | shiftLeft => 8
  | shiftRight => 9
  | shiftRightZero => 10
  | cmp => 11
  | cmpl => 12
  | cmpg => 13

/-- The operator that a code stands for. -/
def ofCode (code : UInt8) : Except UnknownOperator ArithOp :=
  match all[code.toNat]? with
  | some op => .ok op
  | none => .error (.arithmetic code)

/-- The name of an operator in renderings. -/
def name : ArithOp → String
  | add => "add"
  | sub => "sub"
  | mul => "mul"
  | div => "div"
  | rem => "rem"
  | bitAnd => "and"
  | bitOr => "or"
  | bitXor => "xor"
  | shiftLeft => "shl"
  | shiftRight => "shr"
  | shiftRightZero => "ushr"
  | cmp => "cmp"
  | cmpl => "cmpl"
  | cmpg => "cmpg"

/-- Whether the operator is a three-way compare. -/
def isThreeWay : ArithOp → Bool
  | cmp | cmpl | cmpg => true
  | _ => false

end ArithOp

end ValueGraph
