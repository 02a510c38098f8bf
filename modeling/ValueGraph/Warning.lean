/-
  ValueGraph.Warning

  Warnings about settings that were not used as they stand.
-/

namespace ValueGraph

/-- What was wrong with a setting. -/
inductive Warning where
  /-- No rule group has this name. -/
  | unknownRuleGroup (token : String)
  /-- The rule setting is blank, so all groups stay chosen. -/
  | blankRules
  /-- The pass setting is no number of passes. -/
  | invalidPasses (text : String)
deriving DecidableEq

end ValueGraph
