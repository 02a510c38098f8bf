/-
  ValueGraph.Proofs.Term.Negation

  What is negated is no comparison.

  A rule makes a negation only around what is no comparison.  But the operand of
  a negation that was there before may become one: a comparison may stay one, and
  a call may be read as one.  If neither is negated in a term, then no comparison
  is negated after it has been rewritten (`lacks_negates_rewrite`).  By then all
  calls that the rules read as comparisons are gone, so the same holds for any
  number of rewritings (`lacks_negates_iterate`).
-/
import ValueGraph.Proofs.Term.Settling

namespace ValueGraph

namespace Term

/-- Whether the term is the negation of one that has a property. -/
def negates (p : Term → Bool) : Term → Bool
  | negation x _ => p x
  | _ => false

variable {p q : Term → Bool} {t : Term}

theorem negates_mapOperands (f : Term → Term) (t : Term) :
    (t.mapOperands f).negates p = t.negates fun x => p (f x) := by
  cases t <;> rfl

theorem Fresh.negates_isComparison (h : t.Fresh) : t.negates isComparison = false := by
  cases h with
  | negation hx => exact hx
  | comparison | truth => rfl

/-- If no term inside a term is the negation of one with a property, and what is inside it has
    another property only with this one, then the other property is not negated either. -/
theorem Lacks.negates_mono (h : t.Lacks (negates p))
    (hpq : ∀ x ∈ t.subterms, p x = false → q x = false) : t.Lacks (negates q) := by
  intro s hs
  have hp : s.negates p = false := h s hs
  cases s with
  | negation x ty =>
      have hx : x ∈ t.subterms :=
        mem_subterms_trans (mem_subterms_of_operand (by simp [operands]) (mem_subterms_self x)) hs
      exact hpq x hx hp
  | leaf | comparison | arithmetic | virtualCall | staticCall | unresolved => rfl

end Term

namespace Rules

variable {rules : Rules} {t : Term}

/-- Rewriting makes a comparison only of a comparison, or of a call that is read as one. -/
theorem isComparison_rewrite_of_not (h : rules.isRelational t = false) :
    (rules.rewrite t).isComparison = false := by
  rw [rewrite_eq, step]
  cases hstep : rules.step? (t.mapOperands rules.rewrite) with
  | none =>
      rw [isRelational, Bool.or_eq_false_iff] at h
      rw [Option.getD_none, Term.isComparison_mapOperands]
      exact h.1
  | some t' =>
      have happlies := (fires_of_step? hstep).isRelational
      rw [isRelational_mapOperands, h] at happlies
      cases happlies

/-- If a term negates nothing that a rule applies to, then it negates no comparison after it has been
    rewritten. -/
theorem lacks_negates_rewrite (h : t.Lacks (Term.negates rules.isRelational)) :
    (rules.rewrite t).Lacks (Term.negates Term.isComparison) := by
  refine lacks_rewrite (fun s hs => hs.negates_isComparison) fun s hs _ => ?_
  have hplain : s.negates rules.isRelational = false := h s hs
  rw [Term.negates_mapOperands]
  cases s with
  | negation x ty => exact isComparison_rewrite_of_not hplain
  | leaf | comparison | arithmetic | virtualCall | staticCall | unresolved => rfl

/-- Where there are no calls to read as comparisons, only comparisons are left. -/
theorem isRelational_eq_false (hcalls : rules.CallFree t) {x : Term} (hx : x ∈ t.subterms)
    (h : x.isComparison = false) : rules.isRelational x = false := by
  rw [isRelational, h, Bool.false_or, Bool.and_eq_false_iff]
  exact hcalls.imp_right fun hlacks => hlacks x hx

theorem lacks_negates_isRelational_rewrite (h : t.Lacks (Term.negates rules.isRelational)) :
    (rules.rewrite t).Lacks (Term.negates rules.isRelational) :=
  (lacks_negates_rewrite h).negates_mono fun _ hx =>
    isRelational_eq_false (callFree_rewrite rules t) hx

/-- However often a term is rewritten, it negates no comparison if in the beginning it negated nothing
    that a rule applies to. -/
theorem lacks_negates_iterate (h : t.Lacks (Term.negates rules.isRelational)) (count : Nat) :
    (rules.rewrite^[count] t).Lacks (Term.negates Term.isComparison) := by
  induction count generalizing t with
  | zero =>
      refine h.negates_mono fun x _ hx => ?_
      rw [isRelational, Bool.or_eq_false_iff] at hx
      exact hx.1
  | succ count ih =>
      rw [Function.iterate_succ_apply]
      exact ih (lacks_negates_isRelational_rewrite h)

end Rules

end ValueGraph
