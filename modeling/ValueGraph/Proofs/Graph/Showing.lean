/-
  ValueGraph.Proofs.Graph.Showing

  What a stored node shows, and what it says of the term that the node stands
  for: whether the node is a three-way compare, a comparison, or a call that can
  be read as a comparison, is the same question asked of the term.

  All nodes that a root reaches have a property exactly if all terms inside its
  term have the corresponding one (`Unfolds.forall_reached_iff`), so what a root
  does not reach is told by what its term lacks (`Unfolds.lacks_iff`).
-/
import ValueGraph.Proofs.Rule.Reducible
import ValueGraph.Proofs.Term.Making

namespace ValueGraph

namespace Node

/-- Whether the node is a comparison. -/
def isComparison (node : Node) : Bool :=
  match node.kind with
  | .comparison .. => true
  | _ => false

/-- Whether the node is a call of a method in the table, with an argument. -/
def isComparingCall (methods : MethodTable) (node : Node) : Bool :=
  match node.kind with
  | .virtualCall sig _ span => (methods.find? sig).isSome && span.size != 0
  | _ => false

/-- Whether the node is a comparison, or a call that can be read as one. -/
def isRelational (methods : MethodTable) (node : Node) : Bool :=
  node.isComparison || node.isComparingCall methods

end Node

namespace Graph

variable {g : Graph} {root id : NodeId} {node : Node} {t : Term}

theorem Spells.ty_eq (h : g.Spells node t) : node.ty = t.ty := by
  cases h <;> rfl

theorem Spells.isThreeWay_eq (hspells : g.Spells node t) : node.isThreeWay = t.isThreeWay := by
  cases hspells <;> rfl

theorem Spells.isComparison_eq (hspells : g.Spells node t) :
    node.isComparison = t.isComparison := by
  cases hspells <;> rfl

theorem Spells.isComparingCall_eq (hspells : g.Spells node t) (methods : MethodTable) :
    node.isComparingCall methods = t.isComparingCall methods := by
  cases hspells with
  | @virtualCall sig receiver span ids base args ty _ hargs hids =>
      show (_ && span.size != 0) = (_ && !args.isEmpty)
      rw [← length_of_args hargs, hids.length_eq]
      cases args <;> rfl
  | leaf | comparison | arithmetic | negation | staticCall => rfl

theorem Spells.isRelational_eq (hspells : g.Spells node t) (methods : MethodTable) :
    node.isRelational methods = t.isRelational methods := by
  rw [Node.isRelational, hspells.isComparison_eq, hspells.isComparingCall_eq, Term.isRelational]

/-- All nodes that a root reaches have a property exactly if all terms inside its term have the
    corresponding one; only of nodes that the root reaches the two have to correspond. -/
theorem Unfolds.forall_reached_iff {P : NodeId → Prop} {Q : Term → Prop} (hroot : g.Unfolds root t)
    (hPQ : ∀ id s, g.Reaches root id → g.Unfolds id s → (P id ↔ Q s)) :
    (∀ id, g.Reaches root id → P id) ↔ ∀ s ∈ t.subterms, Q s := by
  constructor
  · intro h s hs
    obtain ⟨id, hreach, hid⟩ := hroot.exists_reaches hs
    exact (hPQ id s hreach hid).mp (h id hreach)
  · intro h id hreach
    obtain ⟨s, hs, hid⟩ := hroot.of_reaches hreach
    exact (hPQ id s hreach hid).mpr (h s hs)

theorem Unfolds.forall_reaches_iff {P : NodeId → Prop} {Q : Term → Prop}
    (hPQ : ∀ id t, g.Unfolds id t → (P id ↔ Q t)) (hroot : g.Unfolds root t) :
    (∀ id, g.Reaches root id → P id) ↔ ∀ s ∈ t.subterms, Q s :=
  hroot.forall_reached_iff fun id s _ hid => hPQ id s hid

/-- No node that a root reaches has a property exactly if no term inside its term has it. -/
theorem Unfolds.lacks_iff {p : Node → Bool} {q : Term → Bool}
    (hpq : ∀ node t, g.Spells node t → p node = q t) (hroot : g.Unfolds root t) :
    (∀ id, g.Reaches root id → ¬ g.Shows p id) ↔ t.Lacks q := by
  refine hroot.forall_reaches_iff fun id s hid => ?_
  rw [hid.shows_iff hpq, Bool.not_eq_true]

end Graph

end ValueGraph
