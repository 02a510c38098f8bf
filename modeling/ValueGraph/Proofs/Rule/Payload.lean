/-
  ValueGraph.Proofs.Rule.Payload

  No rule looks at a payload.

  A rule sees of an operand its type, its shape, and its value if it is an
  integer literal; akin nodes have these in common, so every rule answers the same
  for both of two akin graphs (`Akin.nodeRule_eq`).

  To a rule a leaf with a payload is therefore never zero, whatever the payload
  is, and never a literal to decide an equality with: next to an operand that is
  no zero itself it is left where it is (`comparisonRule_of_hasPayload`).
-/
import ValueGraph.Proofs.Graph.Akin
import ValueGraph.Proofs.Graph.Growth
import ValueGraph.Rule.Node

namespace ValueGraph

/-- Whether the node is a leaf with a payload: a literal that is no integer, or a parameter. -/
def Node.hasPayload (node : Node) : Bool :=
  match node.kind with
  | .leaf (.long _) | .leaf (.double _) | .leaf (.str _) | .leaf (.arg _) => true
  | _ => false

/-! ## What akin operands have in common -/

namespace Node.Akin

variable {a b a' b' : Node} {x y : NodeId} {op : RelOp}

theorem intValue?_eq (hakin : a.Akin b) : a.intValue? = b.intValue? := by
  cases hakin with
  | same => rfl
  | leaf hleaf => cases hleaf <;> rfl

theorem isIntZero_eq (hakin : a.Akin b) : a.isIntZero = b.isIntZero := by
  rw [isIntZero, isIntZero, hakin.intValue?_eq]

theorem againstZero?_eq (hakin : a.Akin b) (op : RelOp) (x : NodeId) :
    Operand.againstZero? op ⟨x, a⟩ = Operand.againstZero? op ⟨x, b⟩ := by
  cases hakin with
  | same => rfl
  | leaf hleaf => cases hleaf <;> cases op <;> rfl

theorem foldLiterals?_eq (hleft : a.Akin a') (hright : b.Akin b') :
    foldLiterals? op ⟨x, a⟩ ⟨y, b⟩ = foldLiterals? op ⟨x, a'⟩ ⟨y, b'⟩ := by
  simp only [foldLiterals?, hleft.intValue?_eq, hright.intValue?_eq]

theorem dropZero?_eq (hleft : a.Akin a') (hright : b.Akin b') :
    dropZero? op ⟨x, a⟩ ⟨y, b⟩ = dropZero? op ⟨x, a'⟩ ⟨y, b'⟩ := by
  simp only [dropZero?, hleft.isIntZero_eq, hright.isIntZero_eq, hleft.againstZero?_eq,
    hright.againstZero?_eq]

theorem compareRule?_eq (groups : RuleGroups) (hleft : a.Akin a') (hright : b.Akin b') :
    compareRule? groups op ⟨x, a⟩ ⟨y, b⟩ = compareRule? groups op ⟨x, a'⟩ ⟨y, b'⟩ := by
  rw [compareRule?, compareRule?, hleft.foldLiterals?_eq hright, hleft.dropZero?_eq hright]

end Node.Akin

/-! ## Rules on akin graphs -/

namespace Graph

variable {g h : Graph} {table : MethodTable} {groups : RuleGroups} {op : RelOp}
  {left right : NodeId}

theorem Akin.comparisonRule_eq (hakin : g.Akin h) (groups : RuleGroups) (op : RelOp)
    (left right : NodeId) :
    g.comparisonRule groups op left right = h.comparisonRule groups op left right := by
  rw [comparisonRule, comparisonRule]
  by_cases hreads : groups.readsOperands op = true
  · rw [if_pos hreads, if_pos hreads]
    rcases hakin.node_cases left with ⟨a, a', hg, hh, hleft⟩ | ⟨fault, hg, hh⟩
    · rw [operand_of_node hg, operand_of_node hh]
      rcases hakin.node_cases right with ⟨b, b', hg', hh', hright⟩ | ⟨fault, hg', hh'⟩
      · rw [operand_of_node hg', operand_of_node hh']
        exact congrArg Except.ok (hleft.compareRule?_eq groups hright)
      · rw [operand_of_error hg', operand_of_error hh']
        rfl
    · rw [operand_of_error hg, operand_of_error hh]
      rfl
  · rw [if_neg hreads, if_neg hreads]

theorem Akin.methodRule_eq (hakin : g.Akin h) (table : MethodTable) (sig : Signature)
    (receiver : NodeId) (args : Span) :
    g.methodRule table sig receiver args = h.methodRule table sig receiver args := by
  simp only [methodRule, hakin.args_eq]

theorem Akin.ruleHandlers_eq (hakin : g.Akin h) (table : MethodTable) (groups : RuleGroups) :
    g.ruleHandlers table groups = h.ruleHandlers table groups := by
  simp only [ruleHandlers, hakin.comparisonRule_eq, hakin.methodRule_eq]

/-- There is no rule for leaves. -/
theorem run_ruleHandlers_leaf (g : Graph) (table : MethodTable) (groups : RuleGroups) (id : NodeId)
    (value : Leaf) : (g.ruleHandlers table groups).run id (.leaf value) = .ok none := by
  cases value <;> rfl

/-- The rule for a node answers the same in akin graphs. -/
theorem Akin.nodeRule_eq (hakin : g.Akin h) (table : MethodTable) (groups : RuleGroups)
    (id : NodeId) : g.nodeRule table groups id = h.nodeRule table groups id := by
  rw [nodeRule, nodeRule, hakin.ruleHandlers_eq]
  rcases hakin.node_cases id with ⟨a, b, hg, hh, hnode⟩ | ⟨fault, hg, hh⟩
  · rw [hg, hh]
    cases hnode with
    | same => rfl
    | @leaf value value' ty =>
        show (h.ruleHandlers table groups).run id (.leaf value)
          = (h.ruleHandlers table groups).run id (.leaf value')
        rw [run_ruleHandlers_leaf, run_ruleHandlers_leaf]
  · rw [hg, hh]

/-! ## Leaves with a payload -/

theorem intValue?_of_hasPayload {node : Node} (h : node.hasPayload = true) :
    node.intValue? = none := by
  obtain ⟨kind, ty⟩ := node
  cases kind with
  | leaf value => cases value with
    | int | null | this => cases h
    | long | double | str | arg => rfl
  | comparison | arithmetic | negation | virtualCall | staticCall => rfl

/-- Where neither operand is zero, and one of them is no integer literal, no rule applies. -/
theorem compareRule?_eq_none {l r : Operand} (hl : l.node.isIntZero = false)
    (hr : r.node.isIntZero = false)
    (hlit : l.node.intValue? = none ∨ r.node.intValue? = none) :
    compareRule? groups op l r = none := by
  have hfold : foldLiterals? op l r = none := by
    rw [foldLiterals?]
    rcases hlit with hnone | hnone
    · rw [hnone]
      cases op.isEquality <;> rfl
    · rw [hnone]
      cases op.isEquality <;> cases l.node.intValue? <;> rfl
  have hdrop : dropZero? op l r = none := by rw [dropZero?, hl, hr]
  rw [compareRule?, hfold, hdrop, ite_self, ite_self]
  rfl

/-- A leaf with a payload is never zero to a rule, nor a literal to decide an equality with.  In a
    comparison with an operand that is no integer zero, no rule applies to it, on either side. -/
theorem comparisonRule_of_hasPayload {leaf other : NodeId} {a b : Node}
    (hleaf : g.node leaf = .ok a) (hpayload : a.hasPayload = true)
    (hother : g.node other = .ok b) (hzero : b.isIntZero = false) (groups : RuleGroups)
    (op : RelOp) :
    g.comparisonRule groups op leaf other = .ok none ∧
      g.comparisonRule groups op other leaf = .ok none := by
  have hnone : a.intValue? = none := intValue?_of_hasPayload hpayload
  have hnonzero : a.isIntZero = false := by
    rw [Node.isIntZero, hnone]
    rfl
  constructor
  · rw [comparisonRule, operand_of_node hleaf, operand_of_node hother]
    split
    case isTrue => exact congrArg Except.ok (compareRule?_eq_none hnonzero hzero (Or.inl hnone))
    case isFalse => rfl
  · rw [comparisonRule, operand_of_node hleaf, operand_of_node hother]
    split
    case isTrue => exact congrArg Except.ok (compareRule?_eq_none hzero hnonzero (Or.inr hnone))
    case isFalse => rfl

end Graph

end ValueGraph
