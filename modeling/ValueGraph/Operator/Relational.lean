/-
  ValueGraph.Operator.Relational

  The six relational operators, their codes and names, and the two ways to
  turn one around: `complement` negates a comparison, `converse` swaps its operands.
-/
import ValueGraph.Operator.Code

namespace ValueGraph

/-- A relational operator. -/
inductive RelOp where
  | eq
  | ne
  | lt
  | le
  | gt
  | ge
deriving DecidableEq, Inhabited

namespace RelOp

/-- All operators, in the order of their codes. -/
def all : List RelOp := [eq, ne, lt, le, gt, ge]

/-- The code of an operator. -/
def code : RelOp → UInt8
  | eq => 0
  | ne => 1
  | lt => 2
  | le => 3
  | gt => 4
  | ge => 5

/-- The operator that a code stands for. -/
def ofCode (code : UInt8) : Except UnknownOperator RelOp :=
  match all[code.toNat]? with
  | some op => .ok op
  | none => .error (.relational code)

/-- The name of an operator in renderings. -/
def name : RelOp → String
  | eq => "eq"
  | ne => "ne"
  | lt => "lt"
  | le => "le"
  | gt => "gt"
  | ge => "ge"

/-- Whether two integers stand in the relation. -/
def holds (op : RelOp) (left right : Int) : Bool :=
  match op with
  | eq => left == right
  | ne => left != right
  | lt => left < right
  | le => left ≤ right
  | gt => right < left
  | ge => right ≤ left

/-- The operator that holds exactly where this one does not. -/
def complement : RelOp → RelOp
  | eq => ne
  | ne => eq
  | lt => ge
  | ge => lt
  | gt => le
  | le => gt

/-- The operator that says the same of the swapped operands. -/
def converse : RelOp → RelOp
  | eq => eq
  | ne => ne
  | lt => gt
  | gt => lt
  | le => ge
  | ge => le

/-- Whether the operator is `eq` or `ne`. -/
def isEquality : RelOp → Bool
  | eq | ne => true
  | lt | le | gt | ge => false

/-! ## Laws -/

theorem holds_complement (op : RelOp) (left right : Int) :
    op.complement.holds left right = !op.holds left right := by
  rw [Bool.eq_iff_iff]
  cases op <;> simp [complement, holds]

theorem holds_converse (op : RelOp) (left right : Int) :
    op.converse.holds right left = op.holds left right := by
  cases op with
  | eq => exact BEq.comm
  | ne => exact bne_comm
  | lt | le | gt | ge => rfl

end RelOp

end ValueGraph
