/-
  ValueGraph.Proofs.Term.Typing

  Rewriting keeps types.

  A term is well typed if every comparison inside it, and every call that can be
  read as one, is a truth value by its type; nothing else is asked of the types.
  Whatever a rule makes meets this, and a term over rewritten operands has the
  type that it had, so rewriting keeps a term well typed (`lacks_isMistyped_rewrite`).

  A rule applies to such truth values only.  What it answers is of the boolean
  type again, unless it decides an equality of two literals: the answer is then
  an integer literal, and no later rewriting changes it.  These are the two ways
  to keep a type (`Term.KeepsType`), for any number of rewritings.
-/
import ValueGraph.Proofs.Term.Making

namespace ValueGraph

namespace Term

/-- Whether the term is a comparison or can be read as one, but is no truth value by its type. -/
def isMistyped (methods : MethodTable) (t : Term) : Bool :=
  t.isRelational methods && !t.ty.isBoolean

/-- A term has the type of another, or it is a literal that decides a truth value. -/
def KeepsType (old new : Term) : Prop :=
  new.ty = old.ty ∨ old.ty = .boolean ∧ ∃ holds : Bool,
    new = .leaf (.int (if holds then 1 else 0)) .int

variable {methods : MethodTable} {t t' : Term}

theorem isMistyped_mapOperands (methods : MethodTable) (f : Term → Term) (t : Term) :
    (t.mapOperands f).isMistyped methods = t.isMistyped methods := by
  rw [isMistyped, isRelational_mapOperands, ty_mapOperands, isMistyped]

theorem Fresh.isMistyped (h : t.Fresh) (methods : MethodTable) : t.isMistyped methods = false := by
  cases h with
  | comparison | negation => exact Bool.and_false _
  | truth => rfl

theorem ty_eq_boolean_of_isRelational (h : t.isMistyped methods = false)
    (hrelational : t.isRelational methods = true) : t.ty = .boolean := by
  rw [isMistyped, hrelational, Bool.true_and, Bool.not_eq_false'] at h
  exact eq_of_beq h

/-- A truth value among well-typed terms is of the boolean type, if it is a comparison or not. -/
theorem ty_eq_boolean_of_isTruth (h : t.isMistyped methods = false) (htruth : t.isTruth = true) :
    t.ty = .boolean := by
  cases t with
  | comparison => exact ty_eq_boolean_of_isRelational h rfl
  | leaf | arithmetic | negation | virtualCall | staticCall | unresolved => exact eq_of_beq htruth

/-- What a rule makes of well-typed operands is a truth value, by its type or as a literal. -/
theorem Exposes.ty_eq {ts : List Term} (h : Exposes ts t)
    (hts : ∀ x ∈ ts, x.isMistyped methods = false) :
    t.ty = .boolean ∨ ∃ holds : Bool, t = .leaf (.int (if holds then 1 else 0)) .int := by
  cases h with
  | kept hx htruth => exact Or.inl (ty_eq_boolean_of_isTruth (hts t hx) htruth)
  | made hfresh =>
      cases hfresh with
      | comparison | negation => exact Or.inl rfl
      | truth => exact Or.inr ⟨_, rfl⟩

end Term

namespace Rules

variable {rules : Rules} {methods : MethodTable} {t t' : Term}

/-- Rewriting keeps a term well typed. -/
theorem lacks_isMistyped_rewrite (h : t.Lacks (Term.isMistyped methods)) (rules : Rules) :
    (rules.rewrite t).Lacks (Term.isMistyped methods) :=
  h.rewrite rules (fun _ hs => hs.isMistyped methods) (Term.isMistyped_mapOperands methods)

theorem keepsType_step (hoperands : ∀ o ∈ t.operands, o.isMistyped rules.methods = false)
    (htop : t.isMistyped rules.methods = false) : t.KeepsType (rules.step t) := by
  rw [step]
  cases hstep : rules.step? t with
  | none => exact Or.inl rfl
  | some t' =>
      have hfires := fires_of_step? hstep
      have hrelational : t.isRelational rules.methods = true :=
        isRelational_of_rules hfires.isRelational
      have hty : t.ty = .boolean := Term.ty_eq_boolean_of_isRelational htop hrelational
      rcases hfires.exposes.ty_eq hoperands with hty' | hdecided
      · exact Or.inl (hty'.trans hty.symm)
      · exact Or.inr ⟨hty, hdecided⟩

/-- Rewriting keeps the type of a well-typed term, or decides a truth value. -/
theorem keepsType_rewrite (h : t.Lacks (Term.isMistyped rules.methods)) :
    t.KeepsType (rules.rewrite t) := by
  have hkept : (t.mapOperands rules.rewrite).KeepsType (rules.rewrite t) := by
    rw [rewrite_eq]
    apply keepsType_step
    · intro o ho
      obtain ⟨s, hs, rfl⟩ := mem_operands_rewrite ho
      exact (lacks_isMistyped_rewrite (h.operand hs) rules).self
    · rw [Term.isMistyped_mapOperands]
      exact h.self
  rw [Term.KeepsType, Term.ty_mapOperands] at hkept
  exact hkept

end Rules

/-- What has been decided is not changed by rewriting, and what has kept its type may be decided
    later. -/
theorem Term.KeepsType.rewrite {rules : Rules} {t t' : Term} (h : t.KeepsType t')
    (htyped : t'.Lacks (Term.isMistyped rules.methods)) : t.KeepsType (rules.rewrite t') := by
  rcases h with hty | ⟨hty, holds, rfl⟩
  · have hnext := Rules.keepsType_rewrite htyped
    rw [KeepsType, hty] at hnext
    exact hnext
  · rw [(Rules.canonical_leaf _ _).rewrite_eq]
    exact Or.inr ⟨hty, holds, rfl⟩

end ValueGraph
