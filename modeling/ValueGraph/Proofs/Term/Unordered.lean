/-
  ValueGraph.Proofs.Term.Unordered

  What the rules make of values that are not ordered.

  A float is an integer here or the one value that is unordered.  Nothing stands
  in a relation to it but `ne`, and a three-way compare of it answers -1 or 1, by
  its operator.  The rules are made for values that are ordered.  They take the
  complement of a comparison for its negation, and a three-way compare for what
  relates its operands, and on an unordered operand both may be wrong
  (`Term.misreads`):

    * A comparison by an ordering does not hold, and its complement does not hold
      either.
    * The integer that a three-way compare answers is less than zero, or greater,
      as if its operands were ordered.

  A step on floats keeps the value of a term exactly if nothing is misread
  (`floatValue_step_iff`).  So rewriting keeps the values of all terms inside a
  term exactly if none of them is misread over its rewritten operands
  (`floatValue_rewrite_iff`).  Where nothing is compared with the unordered value
  in the first place, except for equality, all values are kept for good
  (`floatValue_iterate`).
-/
import ValueGraph.Proofs.Term.Meaning
import ValueGraph.Proofs.Term.Making

namespace ValueGraph

/-- The value of a float, or of an integer among floats. -/
inductive FloatValue where
  | ordered (value : Int)
  /-- The value that is no number. -/
  | unordered
deriving DecidableEq

namespace FloatValue

/-- Whether one of two values is unordered. -/
def eitherUnordered : FloatValue → FloatValue → Bool
  | ordered _, ordered _ => false
  | _, _ => true

theorem eitherUnordered_comm (left right : FloatValue) :
    eitherUnordered left right = eitherUnordered right left := by
  cases left <;> cases right <;> rfl

/-- A truth value among floats. -/
def truth (holds : Bool) : FloatValue := ordered (truthValue holds)

theorem truth_inj {a b : Bool} : truth a = truth b ↔ a = b := by
  cases a <;> cases b <;> decide

end FloatValue

/-! ## Operators on floats -/

/-- Whether two floats stand in the relation. -/
def RelOp.relates (op : RelOp) : FloatValue → FloatValue → Bool
  | .ordered left, .ordered right => op.holds left right
  | _, _ => op == .ne

/-- What a three-way compare answers for an unordered pair. -/
def ArithOp.unorderedSign : ArithOp → Int
  | .cmpg => 1
  | _ => -1

/-- What a three-way compare answers. -/
def ArithOp.compares (compare : ArithOp) : FloatValue → FloatValue → Int
  | .ordered left, .ordered right => (left - right).sign
  | _, _ => compare.unorderedSign

/-- Whether the answer for an unordered pair looks as if the pair stood in an ordering. -/
def ArithOp.favours (compare : ArithOp) (op : RelOp) : Bool :=
  !op.isEquality && op.holds compare.unorderedSign 0

namespace RelOp

open FloatValue (eitherUnordered)

theorem isEquality_complement (op : RelOp) : op.complement.isEquality = op.isEquality := by
  cases op <;> rfl

theorem relates_converse (op : RelOp) (left right : FloatValue) :
    op.converse.relates right left = op.relates left right := by
  cases left <;> cases right <;> simp only [relates, holds_converse] <;> cases op <;> rfl

/-- The complement of a relation is its negation, except for an ordering of an unordered pair. -/
theorem relates_complement_iff (op : RelOp) (left right : FloatValue) :
    op.complement.relates left right = (!op.relates left right) ↔
      (!op.isEquality && eitherUnordered left right) = false := by
  cases left <;> cases right <;> simp only [relates, holds_complement, eitherUnordered] <;>
    cases op <;> decide

/-- A three-way compare stands to zero as its operands stand to each other, except for an ordering
    that its answer for an unordered pair looks like. -/
theorem relates_compares_iff (op : RelOp) (compare : ArithOp) (left right : FloatValue) :
    op.relates left right = op.relates (.ordered (compare.compares left right)) (.ordered 0) ↔
      (compare.favours op && eitherUnordered left right) = false := by
  cases left <;> cases right <;>
    simp only [relates, ArithOp.compares, holds_sign, eitherUnordered, ArithOp.favours] <;>
    cases compare <;> cases op <;> decide

end RelOp

/-! ## Terms over floats -/

namespace Term

/-- What a term is worth, if it is put together from floats; `a` tells what the arguments are. -/
def floatValue (a : UInt16 → FloatValue) : Term → FloatValue
  | leaf (.int value) _ => .ordered value.toInt
  | leaf (.arg position) _ => a position
  | comparison op left right _ => .truth (op.relates (left.floatValue a) (right.floatValue a))
  | arithmetic compare left right _ =>
    .ordered (compare.compares (left.floatValue a) (right.floatValue a))
  | negation x _ => .truth (x.floatValue a == .ordered 0)
  | leaf _ _ | virtualCall .. | staticCall .. | unresolved _ => .ordered 0

/-- Whether the term is none of those that are put together from floats: integer literals and
    arguments, the two three-way compares of floats, comparisons and negations.  Arguments, literals
    and compares must not be typed as truth values. -/
def isForeign : Term → Bool
  | leaf (.int _) ty | leaf (.arg _) ty => ty.isBoolean
  | arithmetic .cmpl _ _ ty | arithmetic .cmpg _ _ ty => ty.isBoolean
  | comparison .. | negation .. => false
  | _ => true

/-- Whether `x op 0` says something else when it is read without the zero. -/
def misreads (a : UInt16 → FloatValue) (op : RelOp) : Term → Bool
  -- The complement of an ordering does not hold of an unordered pair either.
  | comparison op' left right _ =>
    op == .eq && (!op'.isEquality &&
      FloatValue.eitherUnordered (left.floatValue a) (right.floatValue a))
  -- An unordered pair stands in no ordering, whatever the compare answers for it.
  | arithmetic compare left right _ =>
    compare.favours op && FloatValue.eitherUnordered (left.floatValue a) (right.floatValue a)
  | _ => false

/-- Whether the term is a comparison with zero that says something else without the zero. -/
def isMisread (a : UInt16 → FloatValue) : Term → Bool
  | comparison op left right _ =>
    left.isIntZero && right.misreads a op.converse || right.isIntZero && left.misreads a op
  | _ => false

/-- Whether the term compares with the unordered value, by an ordering or a three-way compare. -/
def isConfused (a : UInt16 → FloatValue) : Term → Bool
  | comparison op left right _ =>
    !op.isEquality && FloatValue.eitherUnordered (left.floatValue a) (right.floatValue a)
  | arithmetic _ left right _ =>
    FloatValue.eitherUnordered (left.floatValue a) (right.floatValue a)
  | _ => false

variable {a : UInt16 → FloatValue} {op : RelOp} {s t x y : Term}

/-- A term over operands of the same worth is worth the same. -/
theorem floatValue_mapOperands {f : Term → Term}
    (h : ∀ s ∈ t.operands, (f s).floatValue a = s.floatValue a) :
    (t.mapOperands f).floatValue a = t.floatValue a := by
  cases t with
  | leaf | virtualCall | staticCall | unresolved => rfl
  | comparison op left right ty | arithmetic op left right ty =>
      have hleft : (f left).floatValue a = left.floatValue a := h left (by simp [operands])
      have hright : (f right).floatValue a = right.floatValue a := h right (by simp [operands])
      simp only [mapOperands, floatValue, hleft, hright]
  | negation operand ty =>
      have hoperand : (f operand).floatValue a = operand.floatValue a :=
        h operand (by simp [operands])
      simp only [mapOperands, floatValue, hoperand]

theorem isForeign_mapOperands (f : Term → Term) (t : Term) :
    (t.mapOperands f).isForeign = t.isForeign := by
  cases t with
  | arithmetic op left right ty => cases op <;> rfl
  | leaf | comparison | negation | virtualCall | staticCall | unresolved => rfl

theorem Fresh.isForeign (h : t.Fresh) : t.isForeign = false := by
  cases h <;> rfl

/-! ## What stands for a comparison with zero -/

theorem relates_zero_truth (holds : Bool) :
    RelOp.relates .ne (.truth holds) (.ordered 0) = holds ∧
      RelOp.relates .eq (.truth holds) (.ordered 0) = !holds := by
  cases holds <;> decide

/-- A truth value among floats is a comparison or a negation. -/
theorem shape_of_isTruth (hx : x.isForeign = false) (htruth : x.isTruth = true) :
    (∃ op left right ty, x = .comparison op left right ty) ∨ ∃ y ty, x = .negation y ty := by
  cases x with
  | comparison op left right ty => exact Or.inl ⟨op, left, right, ty, rfl⟩
  | negation y ty => exact Or.inr ⟨y, ty, rfl⟩
  | leaf value ty => cases value <;> simp_all [isForeign, isTruth, Term.ty]
  | arithmetic compare left right ty => cases compare <;> simp_all [isForeign, isTruth, Term.ty]
  | virtualCall | staticCall | unresolved => cases hx

/-- What stands for `x op 0` is worth what this comparison is, unless `x` is misread. -/
theorem AgainstZero.floatValue_iff (h : AgainstZero op x y) (hx : x.isForeign = false) :
    y.floatValue a = .truth (op.relates (x.floatValue a) (.ordered 0)) ↔
      x.misreads a op = false := by
  cases h with
  | keep htruth =>
      -- A truth value differs from 0 exactly if it holds.
      rcases shape_of_isTruth hx htruth with ⟨op', left, right, ty, rfl⟩ | ⟨z, ty, rfl⟩ <;>
        rw [floatValue, (relates_zero_truth _).1] <;> exact iff_of_true rfl rfl
  | oppose htruth =>
      rcases shape_of_isTruth hx htruth with ⟨op', left, right, ty, rfl⟩ | ⟨z, ty, rfl⟩
      · rw [opposite, floatValue, floatValue, FloatValue.truth_inj, (relates_zero_truth _).2]
        exact RelOp.relates_complement_iff ..
      · have hopposite : (negation z ty).opposite = .negation (.negation z ty) .boolean := rfl
        rw [hopposite, floatValue, floatValue, FloatValue.truth_inj, (relates_zero_truth _).2]
        exact iff_of_true (by cases z.floatValue a == .ordered 0 <;> decide) rfl
  | @relate _ compare left right ty =>
      rw [floatValue, floatValue, FloatValue.truth_inj]
      exact RelOp.relates_compares_iff ..

theorem againstZero?_isSome_of_misreads (hx : x.isForeign = false) (h : x.misreads a op = true) :
    (x.againstZero? op).isSome = true := by
  rw [Rules.againstZero?_isSome, Bool.or_eq_true, Bool.and_eq_true]
  cases x with
  | comparison op' left right ty =>
      rw [misreads, Bool.and_eq_true, beq_iff_eq] at h
      rw [h.1]
      exact Or.inl ⟨rfl, rfl⟩
  | arithmetic compare left right ty =>
      cases compare with
      | cmpl | cmpg => exact Or.inr rfl
      | _ => cases hx
  | leaf | negation | virtualCall | staticCall | unresolved => cases h

theorem intValue?_of_misreads (h : x.misreads a op = true) : x.intValue? = none := by
  cases x with
  | comparison | arithmetic => rfl
  | leaf | negation | virtualCall | staticCall | unresolved => cases h

/-- Something stands for what is misread against zero, but is not worth the same. -/
theorem exists_againstZero?_of_misreads (hx : x.isForeign = false) (h : x.misreads a op = true) :
    ∃ y, x.againstZero? op = some y ∧
      y.floatValue a ≠ .truth (op.relates (x.floatValue a) (.ordered 0)) := by
  obtain ⟨y, hy⟩ := Option.isSome_iff_exists.mp (againstZero?_isSome_of_misreads hx h)
  refine ⟨y, hy, fun hsame => ?_⟩
  have hplain : x.misreads a op = false :=
    ((againstZero_of_againstZero? hy).floatValue_iff hx).mp hsame
  rw [hplain] at h
  cases h

end Term

namespace Rules

variable {rules : Rules} {a : UInt16 → FloatValue} {t t' : Term}

/-! ## A step -/

/-- A rule keeps the value of a term over floats that is not misread. -/
theorem floatValue_of_fires (h : rules.Fires t t') (ht : t.Lacks Term.isForeign)
    (hread : t.isMisread a = false) : t'.floatValue a = t.floatValue a := by
  cases h with
  | method => cases ht.self
  | @fold op l r lty rty ty =>
      show FloatValue.ordered (Int32.toInt (if op.holds l.toInt r.toInt then 1 else 0))
        = .truth (op.holds l.toInt r.toInt)
      cases op.holds l.toInt r.toInt <;> rfl
  | @leftZero op x y zty ty _ hknown =>
      have hx : x.isForeign = false := (ht.operand (by simp [Term.operands])).self
      have hplain : x.misreads a op.converse = false := by
        rw [Term.isMisread, Bool.or_eq_false_iff] at hread
        exact hread.1
      rw [(hknown.floatValue_iff hx).mpr hplain, RelOp.relates_converse]
      rfl
  | swap =>
      rw [Term.floatValue, Term.floatValue, RelOp.relates_converse]
      rfl
  | @rightZero op x y zty ty _ hknown =>
      have hx : x.isForeign = false := (ht.operand (by simp [Term.operands])).self
      have hplain : x.misreads a op = false := by
        rw [Term.isMisread, Bool.or_eq_false_iff] at hread
        exact hread.2
      rw [(hknown.floatValue_iff hx).mpr hplain]
      rfl

/-- A term that is misread has a step, which does not keep its value. -/
theorem exists_step_of_isMisread (hzero : rules.groups.zero = true)
    (ht : t.Lacks Term.isForeign) (hmisread : t.isMisread a = true) :
    ∃ t', rules.step? t = some t' ∧ t'.floatValue a ≠ t.floatValue a := by
  cases t with
  | comparison op left right ty =>
      rw [Term.isMisread, Bool.or_eq_true, Bool.and_eq_true, Bool.and_eq_true] at hmisread
      rcases hmisread with ⟨hzeroLeft, hmisreads⟩ | ⟨hzeroRight, hmisreads⟩
      · have hx : right.isForeign = false := (ht.operand (by simp [Term.operands])).self
        have hint : right.intValue? = none := Term.intValue?_of_misreads hmisreads
        obtain ⟨y, hy, hchanged⟩ := Term.exists_againstZero?_of_misreads hx hmisreads
        refine ⟨y, ?_, ?_⟩
        · simp [step?, Term.foldLiterals?, hint, hzero, Term.dropLeftZero?, hzeroLeft, hy]
        · obtain ⟨zty, rfl⟩ := Term.eq_leaf_of_isIntZero hzeroLeft
          rw [RelOp.relates_converse] at hchanged
          exact hchanged
      · have hx : left.isForeign = false := (ht.operand (by simp [Term.operands])).self
        have hint : left.intValue? = none := Term.intValue?_of_misreads hmisreads
        have hzeroLeft : left.isIntZero = false := by simp [Term.isIntZero, hint]
        obtain ⟨y, hy, hchanged⟩ := Term.exists_againstZero?_of_misreads hx hmisreads
        refine ⟨y, ?_, ?_⟩
        · simp [step?, Term.foldLiterals?, hint, hzero, Term.dropLeftZero?, hzeroLeft,
            Term.dropRightZero?, hzeroRight, hy]
        · obtain ⟨zty, rfl⟩ := Term.eq_leaf_of_isIntZero hzeroRight
          exact hchanged
  | leaf | arithmetic | negation | virtualCall | staticCall | unresolved => cases hmisread

/-- A step keeps the value of a term over floats exactly if the term is not misread. -/
theorem floatValue_step_iff (hzero : rules.groups.zero = true) (ht : t.Lacks Term.isForeign) :
    (rules.step t).floatValue a = t.floatValue a ↔ t.isMisread a = false := by
  cases hmisread : t.isMisread a with
  | true =>
      obtain ⟨t', hstep, hchanged⟩ := exists_step_of_isMisread hzero ht hmisread
      rw [step, hstep]
      exact iff_of_false hchanged (by decide)
  | false =>
      refine iff_of_true ?_ rfl
      rw [step]
      cases hstep : rules.step? t with
      | none => rfl
      | some t' => exact floatValue_of_fires (fires_of_step? hstep) ht hmisread

/-! ## A rewriting -/

theorem lacks_isForeign_rewrite (ht : t.Lacks Term.isForeign) (rules : Rules) :
    (rules.rewrite t).Lacks Term.isForeign :=
  ht.rewrite rules (fun _ hs => hs.isForeign) Term.isForeign_mapOperands

theorem lacks_isForeign_mapOperands (ht : t.Lacks Term.isForeign) (rules : Rules) :
    (t.mapOperands rules.rewrite).Lacks Term.isForeign := by
  refine Term.lacks_iff.mpr ⟨?_, fun o ho => ?_⟩
  · rw [Term.isForeign_mapOperands]
    exact ht.self
  · obtain ⟨s, hs, rfl⟩ := mem_operands_rewrite ho
    exact lacks_isForeign_rewrite (ht.operand hs) rules

/-- Rewriting keeps the values of all terms inside a term exactly if none of them is misread over its
    rewritten operands. -/
theorem floatValue_rewrite_iff (hzero : rules.groups.zero = true) (ht : t.Lacks Term.isForeign) :
    (∀ s ∈ t.subterms, (rules.rewrite s).floatValue a = s.floatValue a) ↔
      ∀ s ∈ t.subterms, (s.mapOperands rules.rewrite).isMisread a = false := by
  induction t using Term.induct with
  | node t ih =>
      rw [Term.forall_mem_subterms_iff, Term.forall_mem_subterms_iff,
        ← forall₂_congr fun o ho => ih o ho (ht.operand ho)]
      -- Where the operands keep their values, it is up to the step of the term itself.
      refine and_congr_left fun hoperands => ?_
      have hkept : (t.mapOperands rules.rewrite).floatValue a = t.floatValue a :=
        Term.floatValue_mapOperands fun o ho => hoperands o ho o (Term.mem_subterms_self o)
      rw [rewrite_eq, ← hkept]
      exact floatValue_step_iff hzero (lacks_isForeign_mapOperands ht rules)

end Rules

/-! ## Nothing confused -/

namespace Term

variable {a : UInt16 → FloatValue} {op : RelOp} {s t x y : Term}

theorem misreads_of_isConfused (h : x.isConfused a = false) : x.misreads a op = false := by
  cases x with
  | comparison | arithmetic =>
      rw [isConfused] at h
      rw [misreads, h, Bool.and_false]
  | leaf | negation | virtualCall | staticCall | unresolved => rfl

theorem isMisread_of_isConfused (h : ∀ o ∈ t.operands, o.isConfused a = false) :
    t.isMisread a = false := by
  cases t with
  | comparison op left right ty =>
      rw [isMisread, misreads_of_isConfused (h right (by simp [operands])),
        misreads_of_isConfused (h left (by simp [operands])), Bool.and_false, Bool.and_false]
      rfl
  | leaf | arithmetic | negation | virtualCall | staticCall | unresolved => rfl

theorem isConfused_mapOperands {f : Term → Term}
    (h : ∀ s ∈ t.operands, (f s).floatValue a = s.floatValue a) :
    (t.mapOperands f).isConfused a = t.isConfused a := by
  cases t with
  | comparison op left right ty | arithmetic op left right ty =>
      have hleft : (f left).floatValue a = left.floatValue a := h left (by simp [operands])
      have hright : (f right).floatValue a = right.floatValue a := h right (by simp [operands])
      simp only [mapOperands, isConfused, hleft, hright]
  | leaf | negation | virtualCall | staticCall | unresolved => rfl

theorem lacks_isConfused_comparison {left right : Term} {ty : Ty}
    (hleft : left.Lacks (isConfused a)) (hright : right.Lacks (isConfused a))
    (htop : (comparison op left right ty).isConfused a = false) :
    (comparison op left right ty).Lacks (isConfused a) := by
  refine lacks_iff.mpr ⟨htop, ?_⟩
  simp [operands, hleft, hright]

theorem lacks_isConfused_of_againstZero (h : AgainstZero op x y) (hx : x.Lacks (isConfused a)) :
    y.Lacks (isConfused a) := by
  cases h with
  | keep => exact hx
  | oppose =>
      cases x with
      | comparison op' left right ty =>
          have htop : (comparison op' left right ty).isConfused a = false := hx.self
          rw [isConfused, ← RelOp.isEquality_complement] at htop
          exact lacks_isConfused_comparison (hx.operand (by simp [operands]))
            (hx.operand (by simp [operands])) htop
      | leaf | arithmetic | negation | virtualCall | staticCall | unresolved =>
          -- A negation compares nothing itself.
          refine lacks_iff.mpr ⟨rfl, ?_⟩
          simpa [operands, opposite] using hx
  | @relate _ compare left right ty =>
      have htop : FloatValue.eitherUnordered (left.floatValue a) (right.floatValue a) = false :=
        hx.self
      refine lacks_isConfused_comparison (hx.operand (by simp [operands]))
        (hx.operand (by simp [operands])) ?_
      rw [isConfused, htop, Bool.and_false]

end Term

namespace Rules

variable {rules : Rules} {a : UInt16 → FloatValue} {t t' : Term}

theorem lacks_isConfused_of_fires (h : rules.Fires t t') (ht : t.Lacks Term.isForeign)
    (hclear : t.Lacks (Term.isConfused a)) : t'.Lacks (Term.isConfused a) := by
  cases h with
  | method => cases ht.self
  | fold => exact Term.lacks_iff.mpr ⟨rfl, nofun⟩
  | leftZero _ hknown | rightZero _ hknown =>
      exact Term.lacks_isConfused_of_againstZero hknown (hclear.operand (by simp [Term.operands]))
  | @swap op x zty ty =>
      refine Term.lacks_isConfused_comparison (hclear.operand (by simp [Term.operands]))
        (hclear.operand (by simp [Term.operands])) ?_
      rw [Term.isConfused, isEquality_converse, FloatValue.eitherUnordered_comm]
      exact hclear.self

/-- Rewriting keeps the value of a term over floats in which nothing is confused, and keeps it
    so. -/
theorem floatValue_rewrite (ht : t.Lacks Term.isForeign) (hclear : t.Lacks (Term.isConfused a)) :
    (rules.rewrite t).floatValue a = t.floatValue a ∧
      (rules.rewrite t).Lacks (Term.isConfused a) := by
  induction t using Term.induct with
  | node t ih =>
      have hoperands := fun o ho => ih o ho (ht.operand ho) (hclear.operand ho)
      have hkept := Term.floatValue_mapOperands fun o ho => (hoperands o ho).1
      have hforeign := lacks_isForeign_mapOperands ht rules
      have hclear' : (t.mapOperands rules.rewrite).Lacks (Term.isConfused a) := by
        refine Term.lacks_iff.mpr ⟨?_, fun o ho => ?_⟩
        · rw [Term.isConfused_mapOperands fun o ho => (hoperands o ho).1]
          exact hclear.self
        · obtain ⟨s, hs, rfl⟩ := mem_operands_rewrite ho
          exact (hoperands s hs).2
      -- So the step of the term over the rewritten operands misreads nothing.
      have hread := Term.isMisread_of_isConfused fun o ho => (hclear'.operand ho).self
      rw [rewrite_eq, step, ← hkept]
      cases hstep : rules.step? (t.mapOperands rules.rewrite) with
      | none => exact ⟨rfl, hclear'⟩
      | some t' =>
          have hfires := fires_of_step? hstep
          exact ⟨floatValue_of_fires hfires hforeign hread,
            lacks_isConfused_of_fires hfires hforeign hclear'⟩

theorem floatValue_iterate (ht : t.Lacks Term.isForeign) (hclear : t.Lacks (Term.isConfused a))
    (count : Nat) : (rules.rewrite^[count] t).floatValue a = t.floatValue a := by
  induction count generalizing t with
  | zero => rfl
  | succ count ih =>
      obtain ⟨hvalue, hclear'⟩ : (rules.rewrite t).floatValue a = t.floatValue a ∧ _ :=
        floatValue_rewrite ht hclear
      rw [Function.iterate_succ_apply, ih (lacks_isForeign_rewrite ht rules) hclear', hvalue]

end Rules

end ValueGraph
