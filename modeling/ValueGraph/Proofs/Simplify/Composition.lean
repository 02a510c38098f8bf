/-
  ValueGraph.Proofs.Simplify.Composition

  How a pass and a run are put together.

  The image of a node is made from a few steps, by doing one after the other.
  A property of steps that these few have, and that steps keep when they are put
  one after the other (`Compositional`), is therefore one of the image of every
  node, whatever the rules are and however deep the graph is
  (`Compositional.imageOf`).  If the steps at the beginning and at the end of a
  pass and of a run have it too, it is a property of every run
  (`CompositionalRun.simplify`).  One such property is that everything stays where
  it is stored (`grows_run`).

  Of the nodes that a pass reads it makes no difference to it which payload a leaf
  has: a leaf is its own node over the images, since it has no operands
  (`renew_eq_of_akin`).
-/
import ValueGraph.Proofs.Graph.Akin
import ValueGraph.Proofs.Graph.Growth
import ValueGraph.Simplify.Run

namespace ValueGraph

/-- A property that the steps of a pass have, and that is kept when steps are put one after the
    other. -/
structure Compositional (P : {α : Type} → Simplify α → Prop) : Prop where
  pure {α : Type} (a : α) : P (Pure.pure a : Simplify α)
  throw {α : Type} (fault : Fault) : P (MonadExcept.throw fault : Simplify α)
  bind {α β : Type} {x : Simplify α} {f : α → Simplify β} :
    P x → (∀ a, P (f a)) → P (x >>= f)
  /-- What follows the reading of a node may look at anything but a payload. -/
  node {α : Type} (id : NodeId) {f : Node → Simplify α} :
    (∀ node, P (f node)) → (∀ a b : Node, a.Akin b → f a = f b) →
    P (Workspace.view (·.node id) >>= f)
  args (span : Span) : P (Workspace.view (·.args span))
  nodeRule (methods : MethodTable) (groups : RuleGroups) (id : NodeId) :
    P (Workspace.view (·.nodeRule methods groups id))
  push (node : Node) : P (Workspace.edit (Graph.push node))
  pushArgs (ids : List NodeId) : P (Workspace.edit (Graph.pushArgs ids))
  image? (id : NodeId) : P (Workspace.image? id)
  finish (id image : NodeId) : P (Workspace.finish id image)
  recordReplacement (rule : RuleName) (source target : NodeId) :
    P (Workspace.recordReplacement rule source target)

/-- What a pass makes of a node that it has read: the node over the images of its operands. -/
def renew (image : NodeId → Simplify NodeId) (id : NodeId) (node : Node) : Simplify NodeId := do
  let kind ← imageOfKind image node.kind
  if kind = node.kind then
    return id
  else
    Workspace.edit (Graph.push ⟨kind, node.ty⟩)

theorem renew_leaf (image : NodeId → Simplify NodeId) (id : NodeId) (value : Leaf) (ty : Ty) :
    renew image id ⟨.leaf value, ty⟩ = pure id := by
  show (if Kind.leaf value = .leaf value then (pure id : Simplify NodeId) else _) = pure id
  exact if_pos rfl

theorem renew_eq_of_akin (image : NodeId → Simplify NodeId) (id : NodeId) {a b : Node}
    (hakin : a.Akin b) : renew image id a = renew image id b := by
  cases hakin with
  | same => rfl
  | leaf => rw [renew_leaf, renew_leaf]

namespace Compositional

variable {P : {α : Type} → Simplify α → Prop} {image : NodeId → Simplify NodeId}

theorem imagesOf (hP : Compositional P) (himage : ∀ id, P (image id)) (ids : List NodeId) :
    P (ValueGraph.imagesOf image ids) := by
  induction ids with
  | nil => exact hP.pure []
  | cons first rest ih => exact hP.bind (himage first) fun _ => hP.bind ih fun _ => hP.pure _

theorem imageOfArgs (hP : Compositional P) (himage : ∀ id, P (image id)) (args : Span) :
    P (ValueGraph.imageOfArgs image args) := by
  refine hP.bind (hP.args args) fun old => hP.bind (hP.imagesOf himage old) fun new => ?_
  -- Both ways out are among the steps, whichever is taken.
  by_cases hsame : new = old
  · rw [if_pos hsame]
    exact hP.pure args
  · rw [if_neg hsame]
    exact hP.pushArgs new

theorem imageOfKind (hP : Compositional P) (himage : ∀ id, P (image id)) (kind : Kind) :
    P (ValueGraph.imageOfKind image kind) := by
  cases kind with
  | leaf value => exact hP.pure _
  | comparison op left right | arithmetic op left right =>
      exact hP.bind (himage left) fun _ => hP.bind (himage right) fun _ => hP.pure _
  | negation operand => exact hP.bind (himage operand) fun _ => hP.pure _
  | virtualCall sig receiver args =>
      exact hP.bind (himage receiver) fun _ =>
        hP.bind (hP.imageOfArgs himage args) fun _ => hP.pure _
  | staticCall sig args => exact hP.bind (hP.imageOfArgs himage args) fun _ => hP.pure _

theorem overImages (hP : Compositional P) (himage : ∀ id, P (image id)) (id : NodeId) :
    P (ValueGraph.overImages image id) := by
  refine hP.node id (fun node => ?_) fun a b hakin => renew_eq_of_akin image id hakin
  refine hP.bind (hP.imageOfKind himage _) fun kind => ?_
  by_cases hsame : kind = node.kind
  · rw [if_pos hsame]
    exact hP.pure id
  · rw [if_neg hsame]
    exact hP.push _

theorem place (hP : Compositional P) (replacement : Replacement) :
    P (Workspace.edit replacement.place) := by
  cases replacement with
  | stored target => exact hP.pure target
  | fresh node => exact hP.push node

theorem apply (hP : Compositional P) (rules : Rules) (id : NodeId) : P (rules.apply id) := by
  refine hP.bind (hP.nodeRule rules.methods rules.groups id) fun firing => ?_
  cases firing with
  | none => exact hP.pure id
  | some firing =>
      refine hP.bind (hP.place firing.replacement) fun target => ?_
      exact hP.bind (hP.recordReplacement _ _ _) fun _ => hP.pure target

/-- What the steps of a pass have in common is true of the image of every node. -/
theorem imageOf (hP : Compositional P) (rules : Rules) (depth : Nat) (id : NodeId) :
    P (rules.imageOf depth id) := by
  -- Every operand is one level further down, so what is above it may assume the property of it.
  induction depth generalizing id with
  | zero => exact hP.throw .cyclic
  | succ depth ih =>
      refine hP.bind (hP.image? id) fun found => ?_
      cases found with
      | some image => exact hP.pure image
      | none =>
          refine hP.bind (hP.overImages ih id) fun renewed => ?_
          refine hP.bind (hP.apply rules renewed) fun image => ?_
          exact hP.bind (hP.finish id image) fun _ => hP.pure image

end Compositional

/-! ## Whole runs -/

/-- A property as above that also the steps have with which passes and runs begin and end. -/
structure CompositionalRun (P : {α : Type} → Simplify α → Prop) : Prop extends Compositional P where
  beginPass : P Workspace.beginPass
  endPass (number sizeBefore : Nat) : P (Workspace.endPass number sizeBefore)
  report (event : Event) : P (Workspace.report event)
  contains (root : NodeId) : P (Workspace.view fun g => .ok (g.contains root))

namespace CompositionalRun

variable {P : {α : Type} → Simplify α → Prop}

theorem pass (hP : CompositionalRun P) (rules : Rules) (number : Nat) (root : NodeId) :
    P (rules.pass number root) := by
  refine hP.bind hP.beginPass fun size => ?_
  refine hP.bind (hP.imageOf rules (size + 1) root) fun image => ?_
  exact hP.bind (hP.endPass number size) fun _ => hP.pure image

theorem passes (hP : CompositionalRun P) (rules : Rules) (count number : Nat) (root : NodeId) :
    P (rules.passes count number root) := by
  induction count generalizing number root with
  | zero => exact hP.pure _
  | succ count ih =>
      refine hP.bind (hP.pass rules number root) fun image => ?_
      by_cases hkept : image = root
      · rw [if_pos hkept]
        exact hP.pure _
      · rw [if_neg hkept]
        exact ih (number + 1) image

/-- What the steps of a run have in common is true of every run, also if its root is not sound or
    not even stored. -/
theorem simplify (hP : CompositionalRun P) (config : Config) (root : NodeId) :
    P (ValueGraph.simplify config root) := by
  refine hP.bind (hP.report _) fun _ => hP.bind (hP.contains root) fun stored => ?_
  by_cases hstored : stored = true
  · rw [if_pos hstored]
    refine hP.bind (hP.passes config.toRules _ 1 root) fun answer => ?_
    obtain ⟨current, settled⟩ := answer
    by_cases hdone : settled = true ∨ ¬ config.mustSettle = true
    · show P (if settled = true ∨ ¬ config.mustSettle = true then _ else _)
      rw [if_pos hdone]
      exact hP.pure _
    · show P (if settled = true ∨ ¬ config.mustSettle = true then _ else _)
      rw [if_neg hdone]
      exact hP.bind (hP.pass config.toRules _ current) fun image => hP.pure _
  · rw [if_neg hstored]
    exact hP.pure _

end CompositionalRun

/-! ## A run only stores -/

section Grows

variable {α : Type}

theorem Grows.edit {change : Edit α} (hchange : Grows id change) :
    Grows Workspace.graph (Workspace.edit change) := by
  intro w
  have hgrown := hchange w.graph
  cases hrun : change w.graph with
  | ok a h =>
      rw [hrun] at hgrown
      rw [Workspace.edit_of_ok hrun]
      exact hgrown
  | error fault h =>
      rw [hrun] at hgrown
      rw [Workspace.edit_of_error hrun]
      exact hgrown

theorem Grows.read (read : Graph → Except Fault α) :
    Grows Workspace.graph (Workspace.view read) := by
  refine Grows.of_graph_eq fun w => ?_
  rw [Workspace.view]
  cases read w.graph <;> rfl

/-- A run keeps everything that was stored before it, however it ends. -/
theorem grows_run : CompositionalRun fun x => Grows Workspace.graph x where
  pure := Grows.pure
  throw := Grows.throw
  bind := Grows.bind
  node _ _ hf _ := (Grows.read _).bind hf
  args _ := Grows.read _
  nodeRule _ _ _ := Grows.read _
  push node := (Grows.push node).edit
  pushArgs ids := (Grows.pushArgs ids).edit
  image? _ := Grows.of_graph_eq fun _ => rfl
  finish _ _ := Grows.of_graph_eq fun _ => rfl
  recordReplacement _ _ _ := Grows.of_graph_eq fun _ => rfl
  beginPass := Grows.of_graph_eq fun _ => rfl
  endPass _ _ := Grows.of_graph_eq fun _ => rfl
  report _ := Grows.of_graph_eq fun _ => rfl
  contains _ := Grows.read _

end Grows

end ValueGraph
