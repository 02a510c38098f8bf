/-
  ValueGraph.Config

  The settings of a simplification run: which rules, how many passes, and
  whether the last pass has to leave nothing to do.  Settings can be read from
  two texts, as a user gives them.
-/
import ValueGraph.Decimal.Count
import ValueGraph.RuleGroups

namespace ValueGraph

/-- The settings of a run. -/
structure Config where
  groups : RuleGroups
  /-- The most passes that may change the graph; zero counts as one. -/
  passLimit : UInt32
  /-- Whether it is an error if those passes were not enough. -/
  mustSettle : Bool
deriving DecidableEq, Inhabited

namespace Config

/-- One pass with every rule. -/
def standard : Config := ⟨.all, 1, false⟩

/-- The number of passes that the setting `fixpoint` allows. -/
def settleLimit : UInt32 := 16

/-- The same settings with other groups of rules. -/
def withGroups (config : Config) (groups : RuleGroups) : Config := { config with groups }

/-- The same settings with another limit of passes. -/
def withPassLimit (config : Config) (passLimit : UInt32) : Config := { config with passLimit }

/-- The same settings, except that so many passes have to be enough. -/
def settleWithin (config : Config) (passLimit : UInt32) : Config :=
  { config with passLimit, mustSettle := true }

/-! ## Reading the settings -/

/-- What a text asks of the number of passes. -/
inductive PassSetting where
  /-- So many passes. -/
  | atMost (count : UInt32)
  /-- As many as it takes, within a limit. -/
  | fixpoint
deriving DecidableEq

/-- Reads a text without blanks around it: the word `fixpoint` in any ASCII case, or a positive
    count. -/
def PassSetting.parse? (text : List Char) : Option PassSetting :=
  if text.map Char.toLower = "fixpoint".toList then
    some fixpoint
  else
    match Decimal.count? text with
    | some count => if 0 < count then some (atMost count) else none
    | none => none

/-- Applies the rule setting.  A blank one is not a choice of no groups. -/
def applyGroups (config : Config) (text : String) : Config × List Warning :=
  if Text.trim text.toList = [] then
    (config, [.blankRules])
  else
    let (groups, warnings) := RuleGroups.parse text
    (config.withGroups groups, warnings)

/-- Applies the pass setting. -/
def applyPasses (config : Config) (text : String) : Config × List Warning :=
  let trimmed := Text.trim text.toList
  match PassSetting.parse? trimmed with
  | some .fixpoint => (config.settleWithin settleLimit, [])
  | some (.atMost count) => (config.withPassLimit count, [])
  | none => (config, [.invalidPasses (String.ofList trimmed)])

/-- The settings that two texts choose; a text that is absent leaves the standard setting. -/
def ofTexts (rules passes : Option String) : Config × List Warning :=
  let (config, ruleWarnings) := (rules.map standard.applyGroups).getD (standard, [])
  let (config, passWarnings) := (passes.map config.applyPasses).getD (config, [])
  (config, ruleWarnings ++ passWarnings)

/-- The settings that two variables choose.  A variable whose bytes are no UTF-8 text counts as
    absent. -/
def ofVariables (rules passes : Option ByteArray) : Config × List Warning :=
  ofTexts (rules.bind String.fromUTF8?) (passes.bind String.fromUTF8?)

end Config

end ValueGraph
