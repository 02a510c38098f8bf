/-
  ValueGraph.Proofs.Term.Settling

  How often a term has to be rewritten until it is canonical.

  Rewriting makes no three-way compare, and it leaves no call that a rule applies
  to (`callFree_rewrite`).

  Over canonical operands a step leaves a canonical term, unless it opens a
  three-way compare or turns a call into a comparison (`canonical_step`): an
  opposite has a step exactly if the comparison had one, and a zero that has
  changed sides stays there because nothing was known of the other operand.  A
  term without three-way compares is therefore canonical after it has been
  rewritten twice (`canonical_rewrite_rewrite`), and a term without such calls
  after it has been rewritten once (`canonical_rewrite`).
-/
import ValueGraph.Proofs.Term.Making

namespace ValueGraph

namespace Rules

variable {rules : Rules} {op : RelOp} {s t t' x y : Term}

/-! ## Terms that settle soon -/

/-- No rule can open a three-way compare in the term. -/
def CompareFree (rules : Rules) (t : Term) : Prop :=
  rules.groups.zero = false ∨ t.Lacks Term.isThreeWay

/-- No rule can apply to a call in the term. -/
def CallFree (rules : Rules) (t : Term) : Prop :=
  rules.groups.methods = false ∨ t.Lacks (Term.isComparingCall rules.methods)

theorem CompareFree.operand (h : rules.CompareFree t) (hs : s ∈ t.operands) : rules.CompareFree s :=
  h.imp_right fun hall => hall.operand hs

theorem CallFree.operand (h : rules.CallFree t) (hs : s ∈ t.operands) : rules.CallFree s :=
  h.imp_right fun hall => hall.operand hs

theorem CompareFree.rewrite (h : rules.CompareFree t) : rules.CompareFree (rules.rewrite t) :=
  h.imp_right lacks_isThreeWay_rewrite

/-- Rewriting leaves no call that a rule applies to. -/
theorem callFree_rewrite (rules : Rules) (t : Term) : rules.CallFree (rules.rewrite t) := by
  cases hmethods : rules.groups.methods with
  | false => exact Or.inl hmethods
  | true => exact Or.inr (lacks_isComparingCall_of_methods hmethods t)

/-! ## Steps over canonical operands -/

/-- The opposite of a canonical truth value is canonical: a comparison and its complement have a
    step for the same reasons. -/
theorem Canonical.opposite (hx : rules.Canonical x) : rules.Canonical x.opposite := by
  obtain ⟨hnone, hoperands⟩ := canonical_iff.mp hx
  cases x with
  | comparison op l r ty =>
      -- Of the operator only matters whether it is an equality, which the complement keeps.
      have hsame : op.complement.isEquality = op.isEquality := by cases op <;> rfl
      have hstep : (rules.step? (.comparison op.complement l r .boolean)).isSome = false := by
        rw [step?_comparison_isSome, hsame, ← step?_comparison_isSome op l r ty, hnone]
        rfl
      have hnone' : rules.step? (.comparison op.complement l r .boolean) = none := by
        simpa using hstep
      exact canonical_iff.mpr ⟨hnone', hoperands⟩
  | leaf | arithmetic | negation | virtualCall | staticCall | unresolved =>
      refine canonical_iff.mpr ⟨rfl, fun s hs => ?_⟩
      cases List.mem_singleton.mp hs
      exact hx

theorem canonical_of_againstZero (h : Term.AgainstZero op x y) (hx : rules.Canonical x)
    (hway : x.isThreeWay = false) : rules.Canonical y := by
  cases h with
  | keep => exact hx
  | oppose => exact hx.opposite
  | relate hcompare =>
      rw [Term.isThreeWay, hcompare] at hway
      cases hway

/-- A zero that has changed sides stays there, since nothing was known of the other operand. -/
theorem step?_swapped_eq_none {z : Term} {ty : Ty} (hx : x.isIntZero = false)
    (hfold : (if rules.groups.fold then Term.foldLiterals? op z x else none) = none)
    (hknown : x.againstZero? op.converse = none) :
    rules.step? (.comparison op.converse x z ty) = none := by
  -- The operands are the same two, so they cannot be folded now if they could not be before.
  have hliterals : (rules.groups.fold &&
      (op.isEquality && x.intValue?.isSome && z.intValue?.isSome)) = false := by
    cases hgroup : rules.groups.fold with
    | false => rfl
    | true =>
        rw [hgroup, if_pos rfl] at hfold
        rw [Bool.true_and, Bool.and_right_comm, ← foldLiterals?_isSome, hfold]
        rfl
  have hstep : (rules.step? (.comparison op.converse x z ty)).isSome = false := by
    rw [step?_comparison_isSome, ← againstZero?_isSome, hknown, isEquality_converse, hliterals, hx]
    simp
  simpa using hstep

theorem canonical_of_foldLiterals? {l r : Term} (h : Term.foldLiterals? op l r = some t') :
    rules.Canonical t' := by
  rw [Term.foldLiterals?] at h
  split at h
  case h_1 =>
    cases h
    exact canonical_leaf _ _
  case h_2 => cases h

theorem canonical_of_dropLeftZero? {l r : Term} (hl : rules.Canonical l) (hr : rules.Canonical r)
    (hway : r.isThreeWay = false)
    (hfold : (if rules.groups.fold then Term.foldLiterals? op l r else none) = none)
    (h : Term.dropLeftZero? op l r = some t') : rules.Canonical t' := by
  rw [Term.dropLeftZero?] at h
  split at h
  case isFalse => cases h
  case isTrue =>
    rcases (Option.orElse_eq_some _ _ _).mp h with hknown | ⟨hnone, hswap⟩
    · exact canonical_of_againstZero (Term.againstZero_of_againstZero? hknown) hr hway
    · split at hswap
      case isTrue => cases hswap
      case isFalse hright =>
        cases hswap
        have hstep : rules.step? (.comparison op.converse r l .boolean) = none :=
          step?_swapped_eq_none (Bool.eq_false_iff.mpr hright) hfold hnone
        refine canonical_iff.mpr ⟨hstep, fun s hs => ?_⟩
        simp only [Term.operands, List.mem_cons, List.not_mem_nil, or_false] at hs
        rcases hs with rfl | rfl
        · exact hr
        · exact hl

theorem canonical_of_dropRightZero? {l r : Term} (hl : rules.Canonical l)
    (hway : l.isThreeWay = false) (h : Term.dropRightZero? op l r = some t') :
    rules.Canonical t' := by
  rw [Term.dropRightZero?] at h
  split at h
  case isFalse => cases h
  case isTrue => exact canonical_of_againstZero (Term.againstZero_of_againstZero? h) hl hway

/-- A step of a comparison of canonical operands leaves a canonical term, unless it may open a
    three-way compare. -/
theorem canonical_of_step?_comparison {l r : Term} {ty : Ty} (hl : rules.Canonical l)
    (hr : rules.Canonical r)
    (hway : rules.groups.zero = false ∨ l.isThreeWay = false ∧ r.isThreeWay = false)
    (h : rules.step? (.comparison op l r ty) = some t') : rules.Canonical t' := by
  rw [step?] at h
  -- The rules for zeros are tried only if the literals could not be folded.
  rcases (Option.orElse_eq_some _ _ _).mp h with hfold | ⟨hfold, hzero⟩
  · split at hfold
    case isFalse => cases hfold
    case isTrue => exact canonical_of_foldLiterals? hfold
  · split at hzero
    case isFalse => cases hzero
    case isTrue hgroup =>
      obtain ⟨hleft, hright⟩ := hway.resolve_left (by rw [hgroup]; exact Bool.noConfusion)
      rcases (Option.orElse_eq_some _ _ _).mp hzero with hdrop | ⟨-, hdrop⟩
      · exact canonical_of_dropLeftZero? hl hr hright hfold hdrop
      · exact canonical_of_dropRightZero? hl hleft hdrop

/-- A step over canonical operands leaves a canonical term, unless it may open a three-way compare
    or applies to a call. -/
theorem canonical_step (hoperands : ∀ s ∈ t.operands, rules.Canonical s)
    (hway : rules.groups.zero = false ∨ ∀ s ∈ t.operands, s.isThreeWay = false)
    (hcall : rules.groups.methods = false ∨ t.isComparingCall rules.methods = false) :
    rules.Canonical (rules.step t) := by
  rw [step]
  cases hstep : rules.step? t with
  | none => exact canonical_iff.mpr ⟨hstep, hoperands⟩
  | some t' =>
      cases t with
      | leaf | arithmetic | negation | staticCall | unresolved => cases hstep
      | comparison op l r ty =>
          have hl : l ∈ (Term.comparison op l r ty).operands := List.mem_cons_self ..
          have hr : r ∈ (Term.comparison op l r ty).operands :=
            List.mem_cons_of_mem _ (List.mem_singleton_self r)
          have hsides := hway.imp_right fun hall => And.intro (hall l hl) (hall r hr)
          exact canonical_of_step?_comparison (hoperands l hl) (hoperands r hr) hsides hstep
      | virtualCall sig receiver args ty =>
          have hsome : (rules.step? (.virtualCall sig receiver args ty)).isSome = _ :=
            step?_virtualCall_isSome sig receiver args ty
          rw [hstep] at hsome
          rcases hcall with hmethods | hnot
          · rw [hmethods] at hsome
            cases hsome
          · change ((rules.methods.find? sig).isSome && !args.isEmpty) = false at hnot
            rw [Bool.and_assoc, hnot, Bool.and_false] at hsome
            cases hsome

/-! ## Rewriting once and twice -/

/-- A term with no three-way compare to open and no call to read as a comparison is canonical after
    it has been rewritten once. -/
theorem canonical_rewrite (hcompares : rules.CompareFree t) (hcalls : rules.CallFree t) :
    rules.Canonical (rules.rewrite t) := by
  induction t using Term.induct with
  | node t ih =>
      rw [rewrite_eq]
      apply canonical_step
      · intro o ho
        obtain ⟨s, hs, rfl⟩ := mem_operands_rewrite ho
        exact ih s hs (hcompares.operand hs) (hcalls.operand hs)
      · refine hcompares.imp_right fun hall o ho => ?_
        obtain ⟨s, hs, rfl⟩ := mem_operands_rewrite ho
        exact (lacks_isThreeWay_rewrite (hall.operand hs)).self
      · refine hcalls.imp_right fun hall => ?_
        rw [Term.isComparingCall_mapOperands]
        exact hall.self

/-- A term with no three-way compare to open is canonical after it has been rewritten twice. -/
theorem canonical_rewrite_rewrite (hcompares : rules.CompareFree t) :
    rules.Canonical (rules.rewrite (rules.rewrite t)) :=
  canonical_rewrite hcompares.rewrite (callFree_rewrite rules t)

end Rules

end ValueGraph
