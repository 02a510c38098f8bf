/-
  ValueGraph.Name

  Names: short identifiers that stand for class names, method names and
  method descriptors.  The names that the rules have to recognise have fixed
  identifiers, so they mean the same in every table of names.
-/

namespace ValueGraph

/-- A name: a position in a table of names. -/
structure Name where
  raw : UInt32
deriving DecidableEq, Inhabited

namespace Name

/-- The position that the name stands for. -/
def index (name : Name) : Nat := name.raw.toNat

/-- The text of a name in messages: its position. -/
def describe (name : Name) : String := "Name(" ++ toString name.index ++ ")"

theorem index_inj {a b : Name} : a.index = b.index ↔ a = b := by
  cases a; cases b
  simp [index, UInt32.toNat_inj]

/-! ## Reserved names -/

/-- The empty text. -/
def empty : Name := ⟨0⟩

def objectClass : Name := ⟨1⟩
def stringClass : Name := ⟨2⟩
def dateClass : Name := ⟨3⟩
def calendarClass : Name := ⟨4⟩
def sqlDateClass : Name := ⟨5⟩
def sqlTimeClass : Name := ⟨6⟩
def sqlTimestampClass : Name := ⟨7⟩

def equals : Name := ⟨8⟩
def before : Name := ⟨9⟩
def after : Name := ⟨10⟩

/-- The descriptor of a test against any object. -/
def objectTest : Name := ⟨11⟩

/-- The descriptor of a test against a date. -/
def dateTest : Name := ⟨12⟩

/-- The descriptor of a test against a timestamp. -/
def timestampTest : Name := ⟨13⟩

/-- The texts of the reserved names, in the order of their positions. -/
def reserved : List String :=
  ["", "java/lang/Object", "java/lang/String", "java/util/Date", "java/util/Calendar",
    "java/sql/Date", "java/sql/Time", "java/sql/Timestamp", "equals", "before", "after",
    "(Ljava/lang/Object;)Z", "(Ljava/util/Date;)Z", "(Ljava/sql/Timestamp;)Z"]

end Name

end ValueGraph
