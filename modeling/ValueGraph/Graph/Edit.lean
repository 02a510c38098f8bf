/-
  ValueGraph.Graph.Edit

  Edits: how a graph grows.  An edit stores nodes and argument lists within the
  limits that identifiers and spans set, or ends in a fault; what it stored
  before the fault stays.
-/
import ValueGraph.Graph.Basic

namespace ValueGraph

/-- An edit of a graph. -/
abbrev Edit (α : Type) : Type := EStateM Fault Graph α

namespace Graph

/-- Runs a reading of the graph as an edit that changes nothing. -/
def view {α : Type} (read : Graph → Except Fault α) : Edit α := fun g =>
  match read g with
  | .ok value => .ok value g
  | .error fault => .error fault g

/-- Stores a node; its identifier is the number of nodes before it.  The limit is that of all
    identifiers, the invalid one included. -/
def push (node : Node) : Edit NodeId := fun g =>
  if g.size < UInt32.size then
    .ok ⟨.ofNat g.size⟩ (g.addNode node)
  else
    .error (.tooManyNodes g.size) g

/-- Stores an argument list; the empty list takes no room.  A list that is too long for a span
    is a fault, but it has been stored by then. -/
def pushArgs (ids : List NodeId) : Edit Span := fun g =>
  if ids.isEmpty then
    .ok .empty g
  else if g.entries.size < UInt32.size then
    if ids.length < UInt16.size then
      .ok ⟨.ofNat g.entries.size, .ofNat ids.length⟩ (g.addEntries ids)
    else
      .error (.tooManyArguments ids.length) (g.addEntries ids)
  else
    .error (.tooManyEntries g.entries.size) g

/-! ## Builders -/

/-- Stores a leaf of the given type. -/
def leaf (value : Leaf) (ty : Ty) : Edit NodeId := push ⟨.leaf value, ty⟩

def int (value : Int32) : Edit NodeId := push (.int value)

def long (value : Int64) : Edit NodeId := leaf (.long value) .long

def double (bits : UInt64) : Edit NodeId := leaf (.double bits) .double

def str (text : Name) : Edit NodeId := leaf (.str text) .string

/-- Stores a comparison; it is a truth value. -/
def comparison (op : RelOp) (left right : NodeId) : Edit NodeId :=
  push (.comparison op left right)

/-- Stores an arithmetic node; its type follows from the operator and the left operand. -/
def arithmetic (op : ArithOp) (left right : NodeId) : Edit NodeId := do
  let ty ← view (·.arithmeticType op left)
  push ⟨.arithmetic op left right, ty⟩

/-- Stores a negation; it is a truth value. -/
def negation (operand : NodeId) : Edit NodeId := push (.negation operand)

/-- Stores a call on a receiver, with a result of the given type. -/
def virtualCall (sig : Signature) (receiver : NodeId) (args : List NodeId) (ty : Ty) :
    Edit NodeId := do
  let args ← pushArgs args
  push ⟨.virtualCall sig receiver args, ty⟩

/-- Stores a static call, with a result of the given type. -/
def staticCall (sig : Signature) (args : List NodeId) (ty : Ty) : Edit NodeId := do
  let args ← pushArgs args
  push ⟨.staticCall sig args, ty⟩

/-- Stores a comparison whose operator is given by code; an unknown code stores nothing. -/
def comparisonOfCode (code : UInt8) (left right : NodeId) : Edit (Except UnknownOperator NodeId) :=
  match RelOp.ofCode code with
  | .ok op => return .ok (← comparison op left right)
  | .error unknown => return .error unknown

/-- Stores an arithmetic node whose operator is given by code; an unknown code stores nothing. -/
def arithmeticOfCode (code : UInt8) (left right : NodeId) : Edit (Except UnknownOperator NodeId) :=
  match ArithOp.ofCode code with
  | .ok op => return .ok (← arithmetic op left right)
  | .error unknown => return .error unknown

/-- Stores the comparison that holds exactly where the given one does not; a node that is no
    comparison has none. -/
def complementOf (id : NodeId) : Edit (Option NodeId) := do
  match (← view (·.node id)).complement? with
  | some complement => return some (← push complement)
  | none => return none

end Graph

end ValueGraph
