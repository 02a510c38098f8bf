/-
  ValueGraph.Term.Render

  The text of a term.  Operators stand in front of their operands; a call on a
  receiver begins with the receiver.  Types are not written.
-/
import ValueGraph.Decimal.Double
import ValueGraph.Term.Basic
import ValueGraph.Text.Quoted

namespace ValueGraph

/-- The text of a leaf. -/
def Leaf.render (names : NameTable) : Leaf → String
  | int value => toString value.toInt
  | long value => toString value.toInt ++ "L"
  | double bits => Decimal.Double.render bits
  | str text => Text.quote (names.getText text)
  | null => "null"
  | arg position => "arg" ++ toString position.toNat
  | this => "this"

namespace Term

mutual

/-- Appends the text of a term to a text. -/
def write (names : NameTable) : Term → String → String
  | leaf value _, out => out ++ value.render names
  | comparison op left right _, out =>
    right.write names (left.write names (out ++ op.name ++ "(") ++ ", ") ++ ")"
  | arithmetic op left right _, out =>
    right.write names (left.write names (out ++ op.name ++ "(") ++ ", ") ++ ")"
  | negation operand _, out => operand.write names (out ++ "not(") ++ ")"
  | virtualCall sig receiver args _, out =>
    writeArgs names args (receiver.write names out ++ "." ++ sig.qualifiedName names ++ "(") ++ ")"
  | staticCall sig args _, out =>
    writeArgs names args (out ++ sig.qualifiedName names ++ "(") ++ ")"
  | unresolved id, out => out ++ "<invalid " ++ id.describe ++ ">"

/-- Appends the texts of an argument list, with a comma and a space between them. -/
def writeArgs (names : NameTable) : List Term → String → String
  | [], out => out
  | first :: rest, out => writeRest names rest (first.write names out)

/-- Appends the texts of the arguments after the first. -/
def writeRest (names : NameTable) : List Term → String → String
  | [], out => out
  | next :: rest, out => writeRest names rest (next.write names (out ++ ", "))

end

/-- The text of a term. -/
def render (names : NameTable) (term : Term) : String := term.write names ""

/-! ## Writing only appends -/

mutual

theorem write_append (names : NameTable) (out more : String) :
    (term : Term) → term.write names (out ++ more) = out ++ term.write names more
  | leaf _ _ => by simp only [write, String.append_assoc]
  | comparison _ left right _ => by
    simp only [write, String.append_assoc, write_append names out _ left,
      write_append names out _ right]
  | arithmetic _ left right _ => by
    simp only [write, String.append_assoc, write_append names out _ left,
      write_append names out _ right]
  | negation operand _ => by
    simp only [write, String.append_assoc, write_append names out _ operand]
  | virtualCall _ receiver args _ => by
    simp only [write, String.append_assoc, write_append names out _ receiver,
      writeArgs_append names out _ args]
  | staticCall _ args _ => by
    simp only [write, String.append_assoc, writeArgs_append names out _ args]
  | unresolved _ => by simp only [write, String.append_assoc]

theorem writeArgs_append (names : NameTable) (out more : String) :
    (args : List Term) → writeArgs names args (out ++ more) = out ++ writeArgs names args more
  | [] => rfl
  | first :: rest => by
    simp only [writeArgs, write_append names out _ first, writeRest_append names out _ rest]

theorem writeRest_append (names : NameTable) (out more : String) :
    (args : List Term) → writeRest names args (out ++ more) = out ++ writeRest names args more
  | [] => rfl
  | next :: rest => by
    simp only [writeRest, String.append_assoc, write_append names out _ next,
      writeRest_append names out _ rest]

end

theorem write_eq_append_render (names : NameTable) (term : Term) (out : String) :
    term.write names out = out ++ term.render names := by
  rw [render, ← write_append, String.append_empty]

end Term

end ValueGraph
