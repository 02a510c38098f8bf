/-
  ValueGraph.Proofs.Term.Weight

  A measure that rewriting decreases.  The number of nodes alone will not do: a
  zero may change sides, and a call becomes a comparison with as many operands.
  `Term.weight` counts the nodes of a term and adds two for every call on a
  receiver, and one for every comparison that has its zero on the wrong side.

    * A rule makes a term lighter and no larger (`weight_lt_of_fires`,
      `size_le_of_fires`).
    * Rewriting makes a term lighter unless the term is canonical
      (`weight_rewrite_lt`), and never makes it larger (`size_rewrite_le`).
    * A term weighs at most three for each of its nodes (`weight_le`).
-/
import Mathlib.Algebra.Order.BigOperators.Group.List
import Mathlib.Algebra.Order.Group.Nat
import ValueGraph.Proofs.Term.Canonical

namespace ValueGraph

namespace Term

/-- Whether the term is a call on a receiver. -/
def isVirtualCall : Term → Bool
  | virtualCall .. => true
  | _ => false

/-- Whether the term compares the literal zero with something else. -/
def hasLeftZero : Term → Bool
  | comparison _ left right _ => left.isIntZero && !right.isIntZero
  | _ => false

/-- The number of nodes, two more for every call on a receiver, and one more for every comparison
    of zero with something else. -/
def weight (t : Term) : Nat :=
  t.size + 2 * t.subterms.countP isVirtualCall + t.subterms.countP hasLeftZero

/-- What the top of a term adds to its weight. -/
def topWeight (t : Term) : Nat :=
  1 + 2 * t.isVirtualCall.toNat + t.hasLeftZero.toNat

theorem countP_eq_sum (p : Term → Bool) (ts : List Term) :
    ts.countP p = (ts.map fun t => (p t).toNat).sum := by
  induction ts with
  | nil => rfl
  | cons first rest ih =>
      rw [List.countP_cons, ih, List.map_cons, List.sum_cons, Nat.add_comm]
      cases p first <;> rfl

theorem weight_eq_sum (t : Term) : t.weight = (t.subterms.map topWeight).sum := by
  rw [weight, size, countP_eq_sum, countP_eq_sum]
  induction t.subterms with
  | nil => rfl
  | cons first rest ih =>
      simp only [List.length_cons, List.map_cons, List.sum_cons, topWeight] at ih ⊢
      omega

theorem weight_eq (t : Term) : t.weight = t.topWeight + (t.operands.map weight).sum := by
  have hoperands : ∀ ts : List Term,
      ((ts.flatMap subterms).map topWeight).sum = (ts.map weight).sum := by
    intro ts
    induction ts with
    | nil => rfl
    | cons first rest ih =>
        rw [List.flatMap_cons, List.map_append, List.sum_append, ih, ← weight_eq_sum,
          List.map_cons, List.sum_cons]
  rw [weight_eq_sum, subterms_eq, List.map_cons, List.sum_cons, hoperands]

theorem topWeight_le (t : Term) : t.topWeight ≤ 3 := by
  have hzero := Bool.toNat_le t.hasLeftZero
  cases t with
  | virtualCall => exact Nat.le_refl 3
  | leaf | comparison | arithmetic | negation | staticCall | unresolved =>
      simp only [topWeight, isVirtualCall, Bool.toNat_false]
      omega

/-- A term weighs at most three for each of its nodes. -/
theorem weight_le (t : Term) : t.weight ≤ 3 * t.size := by
  have hsum := List.sum_le_card_nsmul (t.subterms.map topWeight) 3 (by
    intro n hn
    obtain ⟨s, -, rfl⟩ := List.mem_map.mp hn
    exact s.topWeight_le)
  rw [List.length_map, Nat.nsmul_eq_mul, Nat.mul_comm] at hsum
  rw [weight_eq_sum]
  exact hsum

theorem size_le_weight (t : Term) : t.size ≤ t.weight := by
  rw [weight]
  omega

theorem weight_pos (t : Term) : 0 < t.weight :=
  Nat.lt_of_lt_of_le t.size_pos t.size_le_weight

/-! ## The parts of each kind of term -/

@[simp] theorem weight_leaf (value : Leaf) (ty : Ty) : (leaf value ty).weight = 1 := rfl

@[simp] theorem size_leaf (value : Leaf) (ty : Ty) : (leaf value ty).size = 1 := rfl

@[simp] theorem size_comparison (op : RelOp) (left right : Term) (ty : Ty) :
    (comparison op left right ty).size = left.size + right.size + 1 := by
  simp [size_eq, operands]

@[simp] theorem size_negation (operand : Term) (ty : Ty) :
    (negation operand ty).size = operand.size + 1 := by
  simp [size_eq, operands]

@[simp] theorem size_arithmetic (op : ArithOp) (left right : Term) (ty : Ty) :
    (arithmetic op left right ty).size = left.size + right.size + 1 := by
  simp [size_eq, operands]

theorem weight_comparison (op : RelOp) (left right : Term) (ty : Ty) :
    (comparison op left right ty).weight
      = 1 + (left.isIntZero && !right.isIntZero).toNat + left.weight + right.weight := by
  rw [weight_eq, operands, List.map_cons, List.map_cons, List.map_nil, List.sum_cons,
    List.sum_cons, List.sum_nil]
  show 1 + 2 * 0 + _ + _ = _
  simp only [hasLeftZero]
  omega

theorem weight_arithmetic (op : ArithOp) (left right : Term) (ty : Ty) :
    (arithmetic op left right ty).weight = 1 + left.weight + right.weight := by
  simp [weight_eq, operands, topWeight, isVirtualCall, hasLeftZero, Nat.add_assoc]

theorem weight_negation (operand : Term) (ty : Ty) :
    (negation operand ty).weight = 1 + operand.weight := by
  simp [weight_eq, operands, topWeight, isVirtualCall, hasLeftZero]

theorem weight_virtualCall (sig : Signature) (receiver : Term) (args : List Term) (ty : Ty) :
    (virtualCall sig receiver args ty).weight
      = 3 + receiver.weight + (args.map weight).sum := by
  simp [weight_eq, operands, topWeight, isVirtualCall, hasLeftZero, Nat.add_assoc]

end Term

/-! ## What one rule does -/

namespace Term

/-- Dropping a zero adds at most one to what it was compared with: a negation, or a zero on the
    wrong side of a comparison that was a three-way compare. -/
theorem weight_le_of_againstZero {op : RelOp} {x y : Term} (h : AgainstZero op x y) :
    y.weight ≤ x.weight + 1 := by
  cases h with
  | keep => exact Nat.le_succ _
  | oppose =>
      cases x with
      | comparison op left right ty => simp only [opposite, weight_comparison]; omega
      | leaf | arithmetic | negation | virtualCall | staticCall | unresolved =>
          rw [opposite, weight_negation, Nat.add_comm]
          intros
          contradiction
  | @relate _ compare left right ty =>
      have hbit := Bool.toNat_le (left.isIntZero && !right.isIntZero)
      rw [weight_comparison, weight_arithmetic]
      omega

theorem size_le_of_againstZero {op : RelOp} {x y : Term} (h : AgainstZero op x y) :
    y.size ≤ x.size + 1 := by
  cases h with
  | keep => exact Nat.le_succ _
  | oppose =>
      cases x with
      | comparison op left right ty => simp only [opposite, size_comparison]; omega
      | leaf | arithmetic | negation | virtualCall | staticCall | unresolved =>
          rw [opposite, size_negation]
          intros
          contradiction
  | relate => rw [size_comparison, size_arithmetic]; omega

end Term

namespace Rules

variable {rules : Rules}

/-- A rule makes a term lighter. -/
theorem weight_lt_of_fires {t t' : Term} (h : rules.Fires t t') : t'.weight < t.weight := by
  cases h with
  | @method sig op receiver first rest ty =>
      -- A call weighs three at its top, and a comparison at most two.
      have hbit := Bool.toNat_le (receiver.isIntZero && !first.isIntZero)
      rw [Term.weight_comparison, Term.weight_virtualCall, List.map_cons, List.sum_cons]
      omega
  | fold =>
      rw [Term.weight_comparison, Term.weight_leaf, Term.weight_leaf, Term.weight_leaf]
      omega
  | leftZero _ hknown =>
      -- The comparison and its zero are gone, which is more than what may be new.
      have hadded := Term.weight_le_of_againstZero hknown
      rw [Term.weight_comparison, Term.weight_leaf]
      omega
  | @swap op x zty ty _ hx =>
      -- The zero counts on the left and does not count on the right.
      have hleft : (Term.leaf (.int 0) zty).isIntZero = true := rfl
      rw [Term.weight_comparison, Term.weight_comparison, hleft, hx]
      simp only [Bool.not_true, Bool.not_false, Bool.and_false, Bool.and_true, Bool.toNat_false,
        Bool.toNat_true]
      omega
  | rightZero _ hknown =>
      have hadded := Term.weight_le_of_againstZero hknown
      rw [Term.weight_comparison, Term.weight_leaf]
      omega

theorem size_le_of_fires {t t' : Term} (h : rules.Fires t t') : t'.size ≤ t.size := by
  cases h with
  | method =>
      simp only [Term.size_comparison, Term.size_eq (.virtualCall ..), Term.operands,
        List.map_cons, List.sum_cons]
      omega
  | fold => simp only [Term.size_comparison, Term.size_leaf]; omega
  | leftZero _ hknown | rightZero _ hknown =>
      have hadded := Term.size_le_of_againstZero hknown
      simp only [Term.size_comparison, Term.size_leaf]
      omega
  | swap => simp only [Term.size_comparison]; omega

/-- A rule applies only to a term with two operands or more. -/
theorem two_le_of_fires {t t' : Term} (h : rules.Fires t t') : 2 ≤ t.operands.length := by
  cases h with
  | method => exact Nat.le_add_left 2 _
  | fold | leftZero | swap | rightZero => exact Nat.le_refl 2

theorem size_step_le (t : Term) : (rules.step t).size ≤ t.size := by
  rw [step]
  cases hstep : rules.step? t with
  | none => exact Nat.le_refl _
  | some t' => exact size_le_of_fires (fires_of_step? hstep)

theorem weight_step_le (t : Term) : (rules.step t).weight ≤ t.weight := by
  rw [step]
  cases hstep : rules.step? t with
  | none => exact Nat.le_refl _
  | some t' => exact Nat.le_of_lt (weight_lt_of_fires (fires_of_step? hstep))

/-! ## Rewriting -/

/-- Rewriting never makes a term larger. -/
theorem size_rewrite_le (t : Term) : (rules.rewrite t).size ≤ t.size := by
  induction t using Term.induct with
  | node t ih =>
      rw [rewrite_eq]
      refine Nat.le_trans (size_step_le _) ?_
      rw [Term.size_eq, Term.size_eq t, Term.operands_mapOperands, List.map_map]
      exact Nat.add_le_add_right (List.sum_le_sum ih) 1

/-- Only a term of weight three or more is rewritten to a zero that it was not. -/
theorem three_le_of_rewrite_isIntZero {t : Term} (h : (rules.rewrite t).isIntZero = true)
    (ht : t.isIntZero = false) : 3 ≤ t.weight := by
  rw [rewrite_eq] at h
  cases hstep : rules.step? (t.mapOperands rules.rewrite) with
  | none =>
      rw [step_eq_self hstep] at h
      cases t with
      | leaf => exact absurd (h.symm.trans ht) Bool.noConfusion
      | comparison | arithmetic | negation | virtualCall | staticCall | unresolved => cases h
  | some t' =>
      have hlength := two_le_of_fires (fires_of_step? hstep)
      rw [Term.operands_mapOperands, List.length_map] at hlength
      -- Two operands and the top make three nodes.
      have hsum : t.operands.length ≤ (t.operands.map Term.size).sum := by
        simpa using List.card_nsmul_le_sum (t.operands.map Term.size) 1 (by
          intro n hn
          obtain ⟨s, -, rfl⟩ := List.mem_map.mp hn
          exact s.size_pos)
      have hsize := t.size_le_weight
      rw [Term.size_eq] at hsize
      omega

theorem rewrite_eq_of_isIntZero {t : Term} (h : t.isIntZero = true) : rules.rewrite t = t := by
  obtain ⟨ty, rfl⟩ := Term.eq_leaf_of_isIntZero h
  rfl

/-- Over rewritten operands the top of a term adds no more to the weight than before, unless a zero
    has come up on the left; but then so much is gone below that the term is lighter as a whole. -/
theorem topWeight_mapOperands_rewrite {t : Term}
    (hle : ∀ s ∈ t.operands, (rules.rewrite s).weight ≤ s.weight) :
    (t.mapOperands rules.rewrite).topWeight ≤ t.topWeight ∨
      (t.mapOperands rules.rewrite).weight < t.weight := by
  cases t with
  | leaf | arithmetic | negation | virtualCall | staticCall | unresolved =>
      exact Or.inl (Nat.le_refl _)
  | comparison op left right ty =>
      by_cases hnew : (rules.rewrite left).isIntZero = true ∧ left.isIntZero = false
      · right
        obtain ⟨hzero, hleft⟩ := hnew
        -- The left operand has come down from three or more to one.
        have hthree := three_le_of_rewrite_isIntZero hzero hleft
        have hright := hle right (by simp [Term.operands])
        obtain ⟨zty, hone⟩ := Term.eq_leaf_of_isIntZero hzero
        have hbit := Bool.toNat_le (true && !(rules.rewrite right).isIntZero)
        rw [Term.mapOperands, Term.weight_comparison, Term.weight_comparison, hzero, hone,
          Term.weight_leaf]
        omega
      · left
        -- A zero on the left was one before, and so was a zero on the right.
        have hkept : (rules.rewrite left).isIntZero = true → left.isIntZero = true := by
          intro hzero
          by_contra hleft
          exact hnew ⟨hzero, Bool.eq_false_of_not_eq_true hleft⟩
        have hbits : ((rules.rewrite left).isIntZero && !(rules.rewrite right).isIntZero) = true →
            (left.isIntZero && !right.isIntZero) = true := by
          simp only [Bool.and_eq_true, Bool.not_eq_true']
          rintro ⟨hleft, hright⟩
          refine ⟨hkept hleft, ?_⟩
          by_contra hzero
          rw [rewrite_eq_of_isIntZero (Bool.eq_true_of_not_eq_false hzero)] at hright
          exact hzero hright
        have hle := Bool.toNat_le_toNat hbits
        simp only [Term.mapOperands, Term.topWeight, Term.isVirtualCall, Term.hasLeftZero]
        omega

theorem weight_mapOperands_rewrite_le {t : Term}
    (hle : ∀ s ∈ t.operands, (rules.rewrite s).weight ≤ s.weight) :
    (t.mapOperands rules.rewrite).weight ≤ t.weight := by
  rcases topWeight_mapOperands_rewrite hle with htop | hlt
  · have hsum := List.sum_le_sum hle
    rw [Term.weight_eq, Term.weight_eq t, Term.operands_mapOperands, List.map_map]
    exact Nat.add_le_add htop hsum
  · exact Nat.le_of_lt hlt

theorem weight_mapOperands_rewrite_lt {t : Term}
    (hle : ∀ s ∈ t.operands, (rules.rewrite s).weight ≤ s.weight)
    (hlt : ∃ s ∈ t.operands, (rules.rewrite s).weight < s.weight) :
    (t.mapOperands rules.rewrite).weight < t.weight := by
  rcases topWeight_mapOperands_rewrite hle with htop | hlt
  · have hsum := List.sum_lt_sum _ _ hle hlt
    rw [Term.weight_eq, Term.weight_eq t, Term.operands_mapOperands, List.map_map]
    exact Nat.add_lt_add_of_le_of_lt htop hsum
  · exact hlt

theorem weight_rewrite_le (t : Term) : (rules.rewrite t).weight ≤ t.weight := by
  induction t using Term.induct with
  | node t ih =>
      rw [rewrite_eq]
      exact Nat.le_trans (weight_step_le _) (weight_mapOperands_rewrite_le ih)

/-- Rewriting makes a term lighter if a rule has a step anywhere in it. -/
theorem weight_rewrite_lt {t : Term} (h : ¬ rules.Canonical t) :
    (rules.rewrite t).weight < t.weight := by
  induction t using Term.induct with
  | node t ih =>
      have hle : ∀ s ∈ t.operands, (rules.rewrite s).weight ≤ s.weight := fun s _ =>
        weight_rewrite_le s
      rw [rewrite_eq]
      by_cases hoperands : ∀ s ∈ t.operands, rules.Canonical s
      · -- Nothing changes below, so the rule has its step at the top.
        rw [mapOperands_rewrite_eq_self fun s hs => (hoperands s hs).rewrite_eq, step]
        cases hstep : rules.step? t with
        | none => exact absurd (canonical_iff.mpr ⟨hstep, hoperands⟩) h
        | some t' => exact weight_lt_of_fires (fires_of_step? hstep)
      · -- An operand is lighter already, and the step does not make up for it.
        simp only [not_forall] at hoperands
        obtain ⟨s, hs, hcanonical⟩ := hoperands
        have hlt := weight_mapOperands_rewrite_lt hle ⟨s, hs, ih s hs hcanonical⟩
        exact Nat.lt_of_le_of_lt (weight_step_le _) hlt

/-- The canonical terms are those that rewriting leaves as they are. -/
theorem canonical_iff_rewrite_eq {t : Term} : rules.Canonical t ↔ rules.rewrite t = t := by
  constructor
  · exact Canonical.rewrite_eq
  · intro h
    by_contra hcanonical
    have hlt := weight_rewrite_lt hcanonical
    rw [h] at hlt
    exact Nat.lt_irrefl _ hlt

/-- A term that is not canonical after being rewritten so many times was heavier by as many at least. -/
theorem weight_iterate_add_le {t : Term} {count : Nat}
    (h : ¬ rules.Canonical (rules.rewrite^[count] t)) :
    (rules.rewrite^[count] t).weight + count ≤ t.weight := by
  induction count with
  | zero => exact Nat.le_refl _
  | succ count ih =>
      rw [Function.iterate_succ_apply'] at h ⊢
      -- It was not canonical one step earlier either, or it would not have changed.
      have hbefore : ¬ rules.Canonical (rules.rewrite^[count] t) := by
        intro hcanonical
        rw [hcanonical.rewrite_eq] at h
        exact h hcanonical
      have hlighter := weight_rewrite_lt hbefore
      have hrest := ih hbefore
      omega

end Rules

end ValueGraph
