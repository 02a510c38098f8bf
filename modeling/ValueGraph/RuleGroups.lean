/-
  ValueGraph.RuleGroups

  The groups of rules that a simplification applies, and how a choice of groups
  is read from a text.
-/
import ValueGraph.Text.Blank
import ValueGraph.Text.Fields
import ValueGraph.Warning

namespace ValueGraph

/-- A choice of rule groups. -/
structure RuleGroups where
  /-- Decide an equality of two integer literals. -/
  fold : Bool
  /-- Read a comparison with zero without the zero. -/
  zero : Bool
  /-- Read a call of a comparing method as a comparison. -/
  methods : Bool
deriving DecidableEq, Inhabited

namespace RuleGroups

/-- No group. -/
def none : RuleGroups := ⟨false, false, false⟩

/-- Every group. -/
def all : RuleGroups := ⟨true, true, true⟩

/-- The groups that are in at least one of two choices. -/
def union (a b : RuleGroups) : RuleGroups :=
  ⟨a.fold || b.fold, a.zero || b.zero, a.methods || b.methods⟩

/-- A choice as a number, with one bit for each group. -/
def bits (groups : RuleGroups) : Nat :=
  groups.fold.toNat + 2 * groups.zero.toNat + 4 * groups.methods.toNat

/-! ## Reading a choice -/

/-- The groups that a token chooses, if it is one that is known. -/
def ofToken? : String → Option RuleGroups
  | "fold" => some { none with fold := true }
  | "zero" => some { none with zero := true }
  | "methods" => some { none with methods := true }
  | "all" => some all
  | "none" | "" => some none
  | _ => Option.none

/-- A part of a text as a token: without the blanks around it, and with ASCII letters in lower
    case. -/
def token (part : List Char) : String := String.ofList ((Text.trim part).map Char.toLower)

/-- The tokens of a text, which stand between commas. -/
def tokens (text : String) : List String := (Text.fields ',' text.toList).map token

/-- Reads a text as a choice of groups: all that its tokens choose.  A token that is not known
    chooses nothing and gives a warning. -/
def parse (text : String) : RuleGroups × List Warning :=
  (((tokens text).filterMap ofToken?).foldl union none,
    ((tokens text).filter fun token => (ofToken? token).isNone).map .unknownRuleGroup)

/-! ## Laws -/

theorem union_none (groups : RuleGroups) : groups.union none = groups := by simp [union, none]

theorem union_assoc (a b c : RuleGroups) : (a.union b).union c = a.union (b.union c) := by
  simp [union, Bool.or_assoc]

instance : Std.Associative union := ⟨union_assoc⟩

end RuleGroups

end ValueGraph
