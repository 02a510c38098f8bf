/-
  ValueGraph.Ty

  The static type of a value: one of the primitive types, or the type of the
  objects of a named class.
-/
import ValueGraph.NameTable

namespace ValueGraph

/-- A static type. -/
inductive Ty where
  | boolean
  | byte
  | char
  | short
  | int
  | long
  | float
  | double
  | void
  /-- A reference to an object of the named class. -/
  | object (className : Name)
deriving DecidableEq, Inhabited

namespace Ty

/-- The primitive types with their keywords. -/
def primitives : List (String × Ty) :=
  [("boolean", boolean), ("byte", byte), ("char", char), ("short", short), ("int", int),
    ("long", long), ("float", float), ("double", double), ("void", void)]

/-- The keyword of a primitive type. -/
def keyword? : Ty → Option String
  | boolean => some "boolean"
  | byte => some "byte"
  | char => some "char"
  | short => some "short"
  | int => some "int"
  | long => some "long"
  | float => some "float"
  | double => some "double"
  | void => some "void"
  | object _ => none

/-- The text of a type: its keyword, or the name of its class. -/
def render (names : NameTable) : Ty → String
  | object className => names.getText className
  | ty => ty.keyword?.getD ""

/-- The type of truth values. -/
def isBoolean (ty : Ty) : Bool := ty == boolean

/-- The type of string literals. -/
def string : Ty := object .stringClass

end Ty

end ValueGraph
