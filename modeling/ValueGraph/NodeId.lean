/-
  ValueGraph.NodeId

  Identifiers of stored nodes, and spans of stored argument identifiers.

  Both are fixed-width: a graph numbers its nodes in 32 bits and bounds an
  argument list by 16 bits.  One identifier, the largest, stands for no node.
-/

namespace ValueGraph

/-- The identifier of a node: its position in the order of storing. -/
structure NodeId where
  raw : UInt32
deriving DecidableEq, Inhabited

namespace NodeId

/-- The identifier that stands for no node. -/
def invalid : NodeId := ⟨0xffffffff⟩

/-- The position that the identifier names. -/
def index (id : NodeId) : Nat := id.raw.toNat

/-- Every identifier but `invalid` may name a node. -/
def isValid (id : NodeId) : Bool := id != invalid

/-- The text of an identifier in messages and in renderings. -/
def describe (id : NodeId) : String :=
  if id.isValid then "ValueId(" ++ toString id.index ++ ")" else "ValueId::INVALID"

theorem index_lt (id : NodeId) : id.index < UInt32.size := id.raw.toNat_lt

theorem index_inj {a b : NodeId} : a.index = b.index ↔ a = b := by
  cases a; cases b
  simp [index, UInt32.toNat_inj]

/-! ## Order -/

/-- Identifiers are ordered by position. -/
instance : Ord NodeId := ⟨compareOn NodeId.raw⟩

instance : Std.TransOrd NodeId :=
  inferInstanceAs (Std.TransCmp (compareOn NodeId.raw))

instance : Std.LawfulEqOrd NodeId where
  compare_self := Std.ReflOrd.compare_self
  eq_of_compare := by
    intro a b h
    have raw_eq : a.raw = b.raw := Std.LawfulEqOrd.eq_of_compare h
    cases a; cases b
    exact congrArg NodeId.mk raw_eq

end NodeId

/-! ## Spans -/

/-- A stretch of a graph's argument storage: where it begins and how many identifiers it has. -/
structure Span where
  start : UInt32
  length : UInt16
deriving DecidableEq, Inhabited

namespace Span

/-- The span of every empty argument list. -/
def empty : Span := ⟨0, 0⟩

/-- A span is empty if its length is zero, wherever it begins. -/
def isEmpty (span : Span) : Bool := span.length == 0

/-- The number of identifiers in the span. -/
def size (span : Span) : Nat := span.length.toNat

/-- The first position of the storage behind the span. -/
def stop (span : Span) : Nat := span.start.toNat + span.size

end Span

end ValueGraph
