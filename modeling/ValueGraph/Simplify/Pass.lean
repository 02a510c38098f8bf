/-
  ValueGraph.Simplify.Pass

  One pass over the graph below a root, from the leaves up.  A node is put over
  the images of its operands, and then the rules are applied to it once.  A node
  is finished once in a pass, however many nodes share it; a node whose operands
  keep their identifiers keeps its own.
-/
import ValueGraph.Simplify.Workspace

namespace ValueGraph

open Workspace

/-- What a pass applies: the rules of the chosen groups, with a table of comparing methods. -/
structure Rules where
  methods : MethodTable
  groups : RuleGroups

/-! ## Images of operands -/

/-- The images of a list of nodes, one after the other. -/
def imagesOf (image : NodeId → Simplify NodeId) : List NodeId → Simplify (List NodeId)
  | [] => return []
  | id :: rest => return (← image id) :: (← imagesOf image rest)

/-- The span of the images of an argument list.  The list is stored again only if one of them is
    new, so the span stays the same exactly if the list does. -/
def imageOfArgs (image : NodeId → Simplify NodeId) (args : Span) : Simplify Span := do
  let old ← view (·.args args)
  let new ← imagesOf image old
  if new = old then
    return args
  else
    edit (Graph.pushArgs new)

/-- What a node computes, from the images of its operands. -/
@[inline] def imageOfKind (image : NodeId → Simplify NodeId) : Kind → Simplify Kind
  | .leaf value => return .leaf value
  | .comparison op left right => return .comparison op (← image left) (← image right)
  | .arithmetic op left right => return .arithmetic op (← image left) (← image right)
  | .negation operand => return .negation (← image operand)
  | .virtualCall sig receiver args =>
    return .virtualCall sig (← image receiver) (← imageOfArgs image args)
  | .staticCall sig args => return .staticCall sig (← imageOfArgs image args)

/-- The node over the images of its operands: itself if they are its operands, and otherwise a new
    node of the same type. -/
@[inline] def overImages (image : NodeId → Simplify NodeId) (id : NodeId) : Simplify NodeId := do
  let node ← view (·.node id)
  let kind ← imageOfKind image node.kind
  if kind = node.kind then
    return id
  else
    edit (Graph.push ⟨kind, node.ty⟩)

/-! ## The pass -/

namespace Rules

/-- Applies the rules to one node as it stands, at most one of them, and answers the node that
    stands for it afterwards. -/
def apply (rules : Rules) (id : NodeId) : Simplify NodeId := do
  match ← view (·.nodeRule rules.methods rules.groups id) with
  | none => return id
  | some ⟨rule, replacement⟩ =>
    let target ← edit replacement.place
    recordReplacement rule id target
    return target

/-- The image of a node in the current pass, if the graph below it is not deeper than `depth`. -/
def imageOf (rules : Rules) : (depth : Nat) → NodeId → Simplify NodeId
  | 0, _ => throw .cyclic
  | depth + 1, id => do
    match ← image? id with
    | some image => return image
    | none =>
      -- The rules see the node over the images, but the image is kept under the node itself.
      let renewed ← overImages (rules.imageOf depth) id
      let image ← rules.apply renewed
      finish id image
      return image

/-- One pass from a root; the answer is the image of the root.  The nodes that are in progress are
    distinct, so there are never more of them than the graph had nodes when the pass began. -/
def pass (rules : Rules) (number : Nat) (root : NodeId) : Simplify NodeId := do
  let sizeBefore ← beginPass
  let image ← rules.imageOf (sizeBefore + 1) root
  endPass number sizeBefore
  return image

end Rules

end ValueGraph
