/-
  ValueGraph.Graph.Reach

  The nodes that a node reaches through its operands and arguments.
-/
import Std.Data.TreeSet
import ValueGraph.Graph.Basic

namespace ValueGraph.Graph

/-- Identifiers in the order in which they were first met. -/
structure Visited where
  order : Array NodeId
  members : Std.TreeSet NodeId

/-- Nothing met yet. -/
def Visited.empty : Visited := ⟨#[], ∅⟩

/-- Meets an identifier for the first time. -/
def Visited.insert (visited : Visited) (id : NodeId) : Visited :=
  ⟨visited.order.push id, visited.members.insert id⟩

/-- Walks depth first over the pending identifiers, the first one and all below it before the
    next.  At most `fresh` identifiers are met for the first time. -/
def walk (g : Graph) (fresh : Nat) (pending : List NodeId) (visited : Visited) :
    Except Fault Visited :=
  match pending with
  | [] => .ok visited
  | id :: rest =>
    if visited.members.contains id then
      g.walk fresh rest visited
    else
      match g.children id, fresh with
      | .error fault, _ => .error fault
      | .ok _, 0 => .error .cyclic
      | .ok children, fresh + 1 => g.walk fresh (children ++ rest) (visited.insert id)
termination_by (fresh, pending.length)

/-- Every identifier that the given one reaches, itself first, in the order of a depth-first walk
    from left to right.  Each of them names a stored node, so there are no more than those. -/
def reachable (g : Graph) (id : NodeId) : Except Fault (List NodeId) :=
  (·.order.toList) <$> g.walk g.size [id] .empty

end ValueGraph.Graph
