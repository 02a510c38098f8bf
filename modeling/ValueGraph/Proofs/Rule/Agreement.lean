/-
  ValueGraph.Proofs.Rule.Agreement

  The rules on a graph agree with the rules on terms.  If a node stands for a
  term, then the rule for the node reads nothing that is not there, and it
  answers exactly if there is a step from the term; what it offers then stands
  for the term after that step (`nodeRule_agrees`).
-/
import ValueGraph.Proofs.Graph.Unfolding
import ValueGraph.Proofs.Term.Rewrite

namespace ValueGraph.Graph

/-- A replacement stands for a term: the stored node does, or the new node would. -/
inductive Offers (g : Graph) : Replacement → Term → Prop
  | stored {id : NodeId} {t : Term} : g.Unfolds id t → g.Offers (.stored id) t
  | fresh {node : Node} {t : Term} : g.Spells node t → g.Offers (.fresh node) t

variable {g : Graph}

/-! ## What can be seen of a node -/

theorem Spells.intValue?_eq {node : Node} {t : Term} (h : g.Spells node t) :
    node.intValue? = t.intValue? := by
  cases h with
  | @leaf value ty => cases value <;> rfl
  | comparison | arithmetic | negation | virtualCall | staticCall => rfl

theorem Spells.isIntZero_eq {node : Node} {t : Term} (h : g.Spells node t) :
    node.isIntZero = t.isIntZero := by
  rw [Node.isIntZero, Term.isIntZero, h.intValue?_eq]

theorem Spells.isTruth_eq {id : NodeId} {node : Node} {t : Term} (h : g.Spells node t) :
    Operand.isTruth ⟨id, node⟩ = t.isTruth := by
  cases h <;> rfl

theorem Spells.opposite {id : NodeId} {node : Node} {t : Term} (hid : g.Unfolds id t)
    (h : g.Spells node t) : g.Spells (node.complement?.getD (.negation id)) t.opposite := by
  cases h with
  | comparison hl hr => exact .comparison hl hr
  | leaf | arithmetic | negation | virtualCall | staticCall => exact .negation hid

theorem Unfolds.exists_operand {id : NodeId} {t : Term} (h : g.Unfolds id t) :
    ∃ node, g.operand id = .ok ⟨id, node⟩ ∧ g.Spells node t := by
  obtain ⟨hread, hspells⟩ := h
  refine ⟨_, ?_, hspells⟩
  rw [operand, hread]
  rfl

/-! ## Comparisons with zero -/

theorem related?_agrees {id : NodeId} {node : Node} {t : Term} (h : g.Spells node t)
    (op : RelOp) : Option.Rel g.Offers (Operand.related? op ⟨id, node⟩) (t.related? op) := by
  cases h with
  | @arithmetic compare left right l r ty hl hr =>
      simp only [Operand.related?, Term.related?]
      split
      · exact .some (.fresh (.comparison hl hr))
      · exact .none
  | leaf | comparison | negation | virtualCall | staticCall => exact .none

theorem againstZero?_agrees {id : NodeId} {node : Node} {t : Term} (hid : g.Unfolds id t)
    (h : g.Spells node t) (op : RelOp) :
    Option.Rel g.Offers (Operand.againstZero? op ⟨id, node⟩) (t.againstZero? op) := by
  have htruth : Operand.isTruth ⟨id, node⟩ = t.isTruth := h.isTruth_eq
  have hrelated : Option.Rel g.Offers (Operand.related? op ⟨id, node⟩) (t.related? op) :=
    related?_agrees h op
  -- For a truth value the two equalities answer at once; everything else is up to `related?`.
  cases ht : t.isTruth with
  | true =>
      rw [ht] at htruth
      rw [Term.againstZero?, ht, Bool.and_true]
      cases op with
      | ne =>
          rw [Operand.againstZero?, Operand.kept?, if_pos htruth]
          exact .some (.stored hid)
      | eq =>
          rw [Operand.againstZero?, Operand.opposite?, if_pos htruth]
          exact .some (.fresh (h.opposite hid))
      | lt | le | gt | ge => exact hrelated
  | false =>
      rw [ht] at htruth
      rw [Term.againstZero?, ht, Bool.and_false, if_neg Bool.false_ne_true]
      cases op with
      | ne =>
          rw [Operand.againstZero?, Operand.kept?, htruth]
          exact hrelated
      | eq =>
          rw [Operand.againstZero?, Operand.opposite?, htruth]
          exact hrelated
      | lt | le | gt | ge => exact hrelated

/-! ## Comparisons -/

theorem rel_orElse {α β : Type} {R : α → β → Prop} {a a' : Option α} {b b' : Option β}
    (h : Option.Rel R a b) (h' : Option.Rel R a' b') :
    Option.Rel R (a <|> a') (b <|> b') := by
  cases h with
  | some hab => exact .some hab
  | none => exact h'

section Comparison

variable {left right : NodeId} {lnode rnode : Node} {l r : Term}

theorem foldLiterals?_agrees (hl : g.Spells lnode l) (hr : g.Spells rnode r) (op : RelOp) :
    Option.Rel g.Offers (foldLiterals? op ⟨left, lnode⟩ ⟨right, rnode⟩)
      (Term.foldLiterals? op l r) := by
  simp only [foldLiterals?, Term.foldLiterals?, hl.intValue?_eq, hr.intValue?_eq]
  cases op.isEquality with
  | false => exact .none
  | true =>
      cases l.intValue? with
      | none => exact .none
      | some lvalue =>
          cases r.intValue? with
          | none => exact .none
          | some rvalue => exact .some (.fresh .leaf)

theorem dropZero?_agrees (hleft : g.Unfolds left l) (hl : g.Spells lnode l)
    (hright : g.Unfolds right r) (hr : g.Spells rnode r) (op : RelOp) :
    Option.Rel g.Offers (dropZero? op ⟨left, lnode⟩ ⟨right, rnode⟩)
      (Term.dropLeftZero? op l r <|> Term.dropRightZero? op l r) := by
  have hknown := againstZero?_agrees hright hr op.converse
  have hknown' := againstZero?_agrees hleft hl op
  rw [dropZero?, hl.isIntZero_eq, hr.isIntZero_eq, Term.dropLeftZero?, Term.dropRightZero?]
  -- Both sides try the operands in the same order; only a swap needs the left zero alone.
  cases l.isIntZero with
  | true =>
      cases r.isIntZero with
      | true =>
          rw [if_pos rfl, if_pos rfl, if_pos rfl, orElse_none]
          exact rel_orElse hknown hknown'
      | false =>
          rw [if_pos rfl, if_neg Bool.false_ne_true, if_neg Bool.false_ne_true, orElse_none]
          exact rel_orElse hknown (.some (.fresh (.comparison hright hleft)))
  | false =>
      cases r.isIntZero with
      | true => exact hknown'
      | false => exact .none

theorem compareRule?_agrees (hleft : g.Unfolds left l) (hl : g.Spells lnode l)
    (hright : g.Unfolds right r) (hr : g.Spells rnode r) (rules : Rules) (op : RelOp) (ty : Ty) :
    Option.Rel g.Offers (compareRule? rules.groups op ⟨left, lnode⟩ ⟨right, rnode⟩)
      (rules.step? (.comparison op l r ty)) := by
  rw [compareRule?, Rules.step?]
  refine rel_orElse ?_ ?_
  · cases rules.groups.fold with
    | true => exact foldLiterals?_agrees hl hr op
    | false => exact .none
  · cases rules.groups.zero with
    | true => exact dropZero?_agrees hleft hl hright hr op
    | false => exact .none

/-- Where no rule looks into the operands there is no step either. -/
theorem step?_eq_none_of_not_readsOperands {rules : Rules} {op : RelOp} {ty : Ty}
    (h : rules.groups.readsOperands op = false) :
    rules.step? (.comparison op l r ty) = none := by
  rw [RuleGroups.readsOperands, Bool.or_eq_false_iff, Bool.and_eq_false_iff] at h
  rw [Rules.step?, h.1, if_neg Bool.false_ne_true, orElse_none]
  rcases h.2 with hfold | hop
  · rw [hfold, if_neg Bool.false_ne_true]
  · rw [Term.foldLiterals?, hop, ite_self]

theorem comparisonRule_agrees (hleft : g.Unfolds left l) (hright : g.Unfolds right r)
    (rules : Rules) (op : RelOp) (ty : Ty) :
    ∃ answer, g.comparisonRule rules.groups op left right = .ok answer ∧
      Option.Rel g.Offers answer (rules.step? (.comparison op l r ty)) := by
  rw [comparisonRule]
  cases hreads : rules.groups.readsOperands op with
  | true =>
      obtain ⟨lnode, hlread, hl⟩ := hleft.exists_operand
      obtain ⟨rnode, hrread, hr⟩ := hright.exists_operand
      rw [hlread, hrread]
      exact ⟨_, rfl, compareRule?_agrees hleft hl hright hr rules op ty⟩
  | false =>
      rw [step?_eq_none_of_not_readsOperands hreads]
      exact ⟨none, rfl, .none⟩

end Comparison

/-! ## Calls -/

theorem methodRule_agrees {receiver : NodeId} {span : Span} {ids : List NodeId} {base : Term}
    {args : List Term} (hbase : g.Unfolds receiver base) (hargs : g.args span = .ok ids)
    (hids : List.Forall₂ g.Unfolds ids args) {rules : Rules}
    (hmethods : rules.groups.methods = true) (sig : Signature) (ty : Ty) :
    ∃ answer, g.methodRule rules.methods sig receiver span = .ok answer ∧
      Option.Rel g.Offers answer (rules.step? (.virtualCall sig base args ty)) := by
  refine ⟨_, methodRule_of_args hargs rules.methods sig receiver, ?_⟩
  -- Without an argument there is nothing to compare with, whatever the table says.
  cases hids with
  | nil =>
      cases rules.methods.find? sig with
      | none => exact .none
      | some op => exact .none
  | cons hfirst _ =>
      rw [Rules.step?, hmethods, if_pos rfl]
      cases rules.methods.find? sig with
      | none => exact .none
      | some op => exact .some (.fresh (.comparison hbase hfirst))

/-! ## The rule for a node -/

theorem rel_map_firing {answer : Option Replacement} {t? : Option Term} (name : RuleName)
    (h : Option.Rel g.Offers answer t?) :
    Option.Rel (fun (firing : Firing) t => g.Offers firing.replacement t)
      (answer.map (⟨name, ·⟩)) t? := by
  cases h with
  | some hoffers => exact .some hoffers
  | none => exact .none

/-- The rule for a node that stands for a term: it can be looked up, and it fires exactly if there
    is a step from the term, with what the step gives. -/
theorem nodeRule_agrees {id : NodeId} {t : Term} (h : g.Unfolds id t) (rules : Rules) :
    ∃ answer, g.nodeRule rules.methods rules.groups id = .ok answer ∧
      Option.Rel (fun (firing : Firing) t' => g.Offers firing.replacement t') answer
        (rules.step? t) := by
  obtain ⟨hread, hspells⟩ := h
  cases hspells with
  | @leaf value ty =>
      rw [nodeRule, hread]
      cases value <;> exact ⟨none, rfl, .none⟩
  | arithmetic | negation | staticCall =>
      rw [nodeRule, hread]
      exact ⟨none, rfl, .none⟩
  | @comparison op left right l r ty hl hr =>
      obtain ⟨answer, hanswer, hrel⟩ := comparisonRule_agrees hl hr rules op ty
      refine ⟨_, ?_, rel_map_firing .comparison hrel⟩
      rw [nodeRule_comparison hread, hanswer]
      rfl
  | @virtualCall sig receiver span ids base args ty hbase hargs hids =>
      rw [nodeRule_virtualCall hread]
      cases hmethods : rules.groups.methods with
      | true =>
          obtain ⟨answer, hanswer, hrel⟩ := methodRule_agrees hbase hargs hids hmethods sig ty
          refine ⟨_, ?_, rel_map_firing .method hrel⟩
          rw [if_pos rfl, hanswer]
          rfl
      | false =>
          have hstep : rules.step? (.virtualCall sig base args ty) = none := by
            cases args with
            | nil => rfl
            | cons first rest => rw [Rules.step?, hmethods, if_neg Bool.false_ne_true]
          exact ⟨none, if_neg Bool.false_ne_true, hstep ▸ .none⟩

end ValueGraph.Graph
