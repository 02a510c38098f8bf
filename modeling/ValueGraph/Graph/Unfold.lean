/-
  ValueGraph.Graph.Unfold

  The term that a node of a graph stands for.
-/
import ValueGraph.Graph.Basic
import ValueGraph.Term.Render

namespace ValueGraph.Graph

/-- The term below an identifier, if it is not deeper than `depth` nodes. -/
def unfoldWithin (g : Graph) : (depth : Nat) → NodeId → Except Fault Term
  | 0, _ => .error .cyclic
  | depth + 1, id =>
    if g.contains id then do
      let ⟨kind, ty⟩ ← g.node id
      match kind with
      | .leaf value => return .leaf value ty
      | .comparison op left right =>
        return .comparison op (← g.unfoldWithin depth left) (← g.unfoldWithin depth right) ty
      | .arithmetic op left right =>
        return .arithmetic op (← g.unfoldWithin depth left) (← g.unfoldWithin depth right) ty
      | .negation operand => return .negation (← g.unfoldWithin depth operand) ty
      | .virtualCall sig receiver args =>
        let receiver ← g.unfoldWithin depth receiver
        return .virtualCall sig receiver (← (← g.args args).mapM (g.unfoldWithin depth)) ty
      | .staticCall sig args =>
        return .staticCall sig (← (← g.args args).mapM (g.unfoldWithin depth)) ty
    else
      .ok (.unresolved id)

/-- The term that an identifier stands for.  A path without a repeated node is no longer than the
    graph, so a graph without cycles is never too deep. -/
def unfold (g : Graph) (id : NodeId) : Except Fault Term := g.unfoldWithin (g.size + 1) id

/-- The text of what an identifier stands for. -/
def render (g : Graph) (names : NameTable) (id : NodeId) : Except Fault String :=
  (·.render names) <$> g.unfold id

end ValueGraph.Graph
