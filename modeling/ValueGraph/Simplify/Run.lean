/-
  ValueGraph.Simplify.Run

  A simplification run: passes from a root until one changes nothing, or until
  the settings allow no more.
-/
import ValueGraph.Config
import ValueGraph.Simplify.Error
import ValueGraph.Simplify.Pass

namespace ValueGraph

open Workspace

namespace Config

/-- The number of passes that settings allow: at least one. -/
def passes (config : Config) : UInt32 := max config.passLimit 1

/-- The number of the pass that only confirms that nothing is left to do; pass numbers have
    32 bits. -/
def confirmingPass (config : Config) : Nat := min (config.passes.toNat + 1) (UInt32.size - 1)

/-- The rules that settings choose, with the standard table of methods. -/
def toRules (config : Config) : Rules := ⟨.standard, config.groups⟩

end Config

/-- Runs up to `count` passes, the first of them with the given number, until one keeps the root.
    Answers the last root, and whether a pass has kept it. -/
def Rules.passes (rules : Rules) : (count number : Nat) → (root : NodeId) →
    Simplify (NodeId × Bool)
  | 0, _, root => return (root, false)
  | count + 1, number, root => do
    let image ← rules.pass number root
    if image = root then
      return (root, true)
    else
      rules.passes count (number + 1) image

/-- Simplifies the graph below a root.  The answer is the simplified root.  If the passes have to
    settle and none of them has kept the root, one more pass has to keep it. -/
def simplify (config : Config) (root : NodeId) : Simplify (Except RunError NodeId) := do
  report (.started root config.passLimit)
  if ← view fun g => .ok (g.contains root) then
    let (current, settled) ← config.toRules.passes config.passes.toNat 1 root
    if settled ∨ ¬ config.mustSettle then
      return .ok current
    else
      -- The last pass may have been the one that left nothing to do; only another one can tell.
      let image ← config.toRules.pass config.confirmingPass current
      return if image = current then .ok current else .error (.unsettled config.passes)
  else
    return .error (.unknownRoot root)

end ValueGraph
