/-
  ValueGraph.Signature

  The identity of a method: its class, its name, and the descriptor of its
  parameters and result.  Three names decide it, so overloads stay apart.
-/
import ValueGraph.NameTable

namespace ValueGraph

/-- The identity of a method. -/
structure Signature where
  owner : Name
  name : Name
  descriptor : Name
deriving DecidableEq, Inhabited

namespace Signature

/-- The name that calls are rendered with: class, dot, method. -/
def qualifiedName (names : NameTable) (sig : Signature) : String :=
  names.getText sig.owner ++ "." ++ names.getText sig.name

/-- The full text of a signature. -/
def render (names : NameTable) (sig : Signature) : String :=
  sig.qualifiedName names ++ names.getText sig.descriptor

/-- The signature with the given texts; they are interned from left to right. -/
def intern (names : NameTable) (owner name descriptor : String) :
    Except NameTable.Full (Signature × NameTable) := do
  let (owner, names) ← names.intern owner
  let (name, names) ← names.intern name
  let (descriptor, names) ← names.intern descriptor
  return (⟨owner, name, descriptor⟩, names)

/-! ## Comparing methods

The library methods that compare their receiver with their argument. -/

def stringEquals : Signature := ⟨.stringClass, .equals, .objectTest⟩

def dateEquals : Signature := ⟨.dateClass, .equals, .objectTest⟩
def dateBefore : Signature := ⟨.dateClass, .before, .dateTest⟩
def dateAfter : Signature := ⟨.dateClass, .after, .dateTest⟩

-- A calendar is compared with any object, not only with a calendar.
def calendarEquals : Signature := ⟨.calendarClass, .equals, .objectTest⟩
def calendarBefore : Signature := ⟨.calendarClass, .before, .objectTest⟩
def calendarAfter : Signature := ⟨.calendarClass, .after, .objectTest⟩

def sqlDateEquals : Signature := ⟨.sqlDateClass, .equals, .objectTest⟩
def sqlDateBefore : Signature := ⟨.sqlDateClass, .before, .dateTest⟩
def sqlDateAfter : Signature := ⟨.sqlDateClass, .after, .dateTest⟩

def sqlTimeEquals : Signature := ⟨.sqlTimeClass, .equals, .objectTest⟩
def sqlTimeBefore : Signature := ⟨.sqlTimeClass, .before, .dateTest⟩
def sqlTimeAfter : Signature := ⟨.sqlTimeClass, .after, .dateTest⟩

-- All three tests of a timestamp take a timestamp.
def sqlTimestampEquals : Signature := ⟨.sqlTimestampClass, .equals, .timestampTest⟩
def sqlTimestampBefore : Signature := ⟨.sqlTimestampClass, .before, .timestampTest⟩
def sqlTimestampAfter : Signature := ⟨.sqlTimestampClass, .after, .timestampTest⟩

end Signature

end ValueGraph
