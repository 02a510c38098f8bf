/-
  ValueGraph.Proofs.Term.Canonical

  Canonical terms: no rule has a step anywhere in them.  Rewriting leaves a
  canonical term as it is (`Canonical.rewrite_eq`).  Which terms have a step is
  told by their operands (`step?_comparison_isSome`, `step?_virtualCall_isSome`).
-/
import ValueGraph.Proofs.Term.Rewrite

namespace ValueGraph

/-- Whether the term is a three-way compare. -/
def Term.isThreeWay : Term → Bool
  | arithmetic op _ _ _ => op.isThreeWay
  | _ => false

namespace Rules

variable {rules : Rules}

/-- No rule has a step from the term or from a term inside it. -/
def Canonical (rules : Rules) (t : Term) : Prop := ∀ s ∈ t.subterms, rules.step? s = none

theorem canonical_iff {t : Term} :
    rules.Canonical t ↔ rules.step? t = none ∧ ∀ s ∈ t.operands, rules.Canonical s :=
  Term.forall_mem_subterms_iff

/-- No rule applies to a leaf. -/
theorem canonical_leaf (value : Leaf) (ty : Ty) : rules.Canonical (.leaf value ty) :=
  canonical_iff.mpr ⟨rfl, fun _ hs => absurd hs List.not_mem_nil⟩

theorem step_eq_self {t : Term} (h : rules.step? t = none) : rules.step t = t := by
  rw [step, h, Option.getD_none]

theorem mapOperands_rewrite_eq_self {t : Term} (h : ∀ s ∈ t.operands, rules.rewrite s = s) :
    t.mapOperands rules.rewrite = t := by
  rw [Term.mapOperands_congr h]
  exact t.mapOperands_id

/-- Rewriting leaves a canonical term as it is. -/
theorem Canonical.rewrite_eq {t : Term} (h : rules.Canonical t) : rules.rewrite t = t := by
  induction t using Term.induct with
  | node t ih =>
      obtain ⟨htop, hoperands⟩ := canonical_iff.mp h
      have hsame := mapOperands_rewrite_eq_self fun s hs => ih s hs (hoperands s hs)
      rw [Rules.rewrite_eq, hsame, step_eq_self htop]

/-! ## Comparisons that have a step -/

theorem againstZero?_isSome (op : RelOp) (x : Term) :
    (x.againstZero? op).isSome = (op.isEquality && x.isTruth || x.isThreeWay) := by
  rw [Term.againstZero?]
  cases op.isEquality && x.isTruth with
  | true => rfl
  | false =>
      rw [if_neg Bool.false_ne_true, Bool.false_or]
      cases x with
      | arithmetic compare left right ty =>
          simp only [Term.related?, Term.isThreeWay]
          cases compare.isThreeWay <;> rfl
      | leaf | comparison | negation | virtualCall | staticCall | unresolved => rfl

theorem isThreeWay_of_isIntZero {x : Term} (h : x.isIntZero = true) : x.isThreeWay = false := by
  obtain ⟨ty, rfl⟩ := Term.eq_leaf_of_isIntZero h
  rfl

theorem isEquality_converse (op : RelOp) : op.converse.isEquality = op.isEquality := by
  cases op <;> rfl

theorem foldLiterals?_isSome (op : RelOp) (left right : Term) :
    (Term.foldLiterals? op left right).isSome
      = (op.isEquality && left.intValue?.isSome && right.intValue?.isSome) := by
  rw [Term.foldLiterals?]
  cases op.isEquality <;> cases left.intValue? <;> cases right.intValue? <;> rfl

theorem dropLeftZero?_isSome (op : RelOp) (left right : Term) :
    (Term.dropLeftZero? op left right).isSome
      = (left.isIntZero && (!right.isIntZero || op.isEquality && right.isTruth)) := by
  rw [Term.dropLeftZero?]
  cases left.isIntZero with
  | false => rfl
  | true =>
      rw [if_pos rfl, Bool.true_and, isSome_orElse, againstZero?_isSome,
        isEquality_converse]
      cases hright : right.isIntZero with
      | false => simp
      | true => simp [isThreeWay_of_isIntZero hright]

theorem dropRightZero?_isSome (op : RelOp) (left right : Term) :
    (Term.dropRightZero? op left right).isSome
      = (right.isIntZero && (op.isEquality && left.isTruth || left.isThreeWay)) := by
  rw [Term.dropRightZero?]
  cases right.isIntZero with
  | false => rfl
  | true => rw [if_pos rfl, Bool.true_and, againstZero?_isSome]

/-- A comparison has a step if it is an equality of two literals, if its left operand alone is
    zero, or if a zero stands next to something that can do without it. -/
theorem step?_comparison_isSome (op : RelOp) (left right : Term) (ty : Ty) :
    (rules.step? (.comparison op left right ty)).isSome
      = (rules.groups.fold &&
            (op.isEquality && left.intValue?.isSome && right.intValue?.isSome) ||
          rules.groups.zero &&
            (left.isIntZero && (!right.isIntZero || op.isEquality && right.isTruth) ||
              right.isIntZero && (op.isEquality && left.isTruth || left.isThreeWay))) := by
  rw [step?, isSome_orElse]
  congr 1
  · cases rules.groups.fold with
    | false => rfl
    | true => rw [if_pos rfl, foldLiterals?_isSome, Bool.true_and]
  · cases rules.groups.zero with
    | false => rfl
    | true =>
        rw [if_pos rfl, isSome_orElse, dropLeftZero?_isSome, dropRightZero?_isSome,
          Bool.true_and]

theorem step?_virtualCall_isSome (sig : Signature) (receiver : Term) (args : List Term) (ty : Ty) :
    (rules.step? (.virtualCall sig receiver args ty)).isSome
      = (rules.groups.methods && (rules.methods.find? sig).isSome && !args.isEmpty) := by
  cases args with
  | nil => rw [List.isEmpty_nil, Bool.not_true, Bool.and_false]; rfl
  | cons first rest =>
      rw [step?, List.isEmpty_cons, Bool.not_false, Bool.and_true]
      cases rules.groups.methods with
      | false => rfl
      | true => rw [if_pos rfl, Option.isSome_map, Bool.true_and]

end Rules

end ValueGraph
