/-
  ValueGraph.Proofs.Term.Meaning

  What terms mean, and that rewriting keeps it.  An `Evaluation` fixes what
  leaves, arithmetic and calls are worth; the rules know only literals,
  comparisons, negations, three-way compares and calls of comparing methods, and
  those are worth the same in every evaluation (`Term.value`).

  The rules take every term of the boolean type for a truth value.  That is
  `Truthful`, and it is what makes them sound: a rule keeps the value of a
  truthful term, and keeps it truthful (`value_of_fires`, `truthful_of_fires`),
  so rewriting does, however often it is repeated (`value_iterate_rewrite`).
-/
import Mathlib.Logic.Function.Iterate
import ValueGraph.Proofs.Term.Rewrite

namespace ValueGraph

/-- What the parts of a term are worth that the rules know nothing of. -/
structure Evaluation where
  leaf : Leaf → Ty → Int
  arithmetic : ArithOp → Ty → Int → Int → Int
  virtualCall : Signature → Ty → Int → List Int → Int
  staticCall : Signature → Ty → List Int → Int

/-- The integer that a truth value is. -/
def truthValue (holds : Bool) : Int := if holds then 1 else 0

/-- Whether an integer is a truth value. -/
def IsTruthValue (value : Int) : Prop := value = 0 ∨ value = 1

theorem isTruthValue_truthValue (holds : Bool) : IsTruthValue (truthValue holds) := by
  cases holds with
  | false => exact Or.inl rfl
  | true => exact Or.inr rfl

namespace Evaluation

/-- What a leaf is worth: an integer literal its integer, whatever its type. -/
def ofLeaf (e : Evaluation) : Leaf → Ty → Int
  | .int value, _ => value.toInt
  | value, ty => e.leaf value ty

/-- What an operator makes of two integers; a three-way compare makes the sign of left minus
    right. -/
def ofArithmetic (e : Evaluation) (op : ArithOp) (ty : Ty) (left right : Int) : Int :=
  if op.isThreeWay then (left - right).sign else e.arithmetic op ty left right

/-- What a call on a receiver is worth: a comparing method compares with its first argument. -/
def ofVirtualCall (e : Evaluation) (methods : MethodTable) (sig : Signature) (ty : Ty)
    (receiver : Int) (args : List Int) : Int :=
  match methods.find? sig, args with
  | some op, first :: _ => truthValue (op.holds receiver first)
  | _, _ => e.virtualCall sig ty receiver args

end Evaluation

namespace Term

mutual

/-- What a term is worth. -/
def value (e : Evaluation) (methods : MethodTable) : Term → Int
  | leaf value ty => e.ofLeaf value ty
  | comparison op left right _ =>
    truthValue (op.holds (left.value e methods) (right.value e methods))
  | arithmetic op left right ty =>
    e.ofArithmetic op ty (left.value e methods) (right.value e methods)
  | negation operand _ => truthValue (operand.value e methods == 0)
  | virtualCall sig receiver args ty =>
    e.ofVirtualCall methods sig ty (receiver.value e methods) (valueOfAll e methods args)
  | staticCall sig args ty => e.staticCall sig ty (valueOfAll e methods args)
  | unresolved _ => 0

/-- What the terms of a list are worth. -/
def valueOfAll (e : Evaluation) (methods : MethodTable) : List Term → List Int
  | [] => []
  | first :: rest => first.value e methods :: valueOfAll e methods rest

end

/-- Every term of the boolean type inside a term is worth 0 or 1. -/
def Truthful (e : Evaluation) (methods : MethodTable) (t : Term) : Prop :=
  ∀ s ∈ t.subterms, s.ty = .boolean → IsTruthValue (s.value e methods)

variable {e : Evaluation} {methods : MethodTable}

theorem valueOfAll_map {f : Term → Term} {ts : List Term}
    (h : ∀ s ∈ ts, (f s).value e methods = s.value e methods) :
    valueOfAll e methods (ts.map f) = valueOfAll e methods ts := by
  induction ts with
  | nil => rfl
  | cons first rest ih =>
      rw [List.map_cons, valueOfAll, valueOfAll, h first (List.mem_cons_self ..),
        ih fun s hs => h s (List.mem_cons_of_mem _ hs)]

/-- A term over operands of the same worth is worth the same. -/
theorem value_mapOperands {f : Term → Term} {t : Term}
    (h : ∀ s ∈ t.operands, (f s).value e methods = s.value e methods) :
    (t.mapOperands f).value e methods = t.value e methods := by
  cases t with
  | leaf | unresolved => rfl
  | comparison op left right ty | arithmetic op left right ty =>
      rw [mapOperands, value, value, h left (by simp [operands]), h right (by simp [operands])]
  | negation operand ty => rw [mapOperands, value, value, h operand (by simp [operands])]
  | virtualCall sig receiver args ty =>
      have hargs := valueOfAll_map fun s hs => h s (List.mem_cons_of_mem _ hs)
      rw [mapOperands, value, value, h receiver (by simp [operands]), hargs]
  | staticCall sig args ty =>
      have hargs : valueOfAll e methods (args.map f) = valueOfAll e methods args :=
        valueOfAll_map h
      rw [mapOperands, value, value, hargs]

theorem truthful_iff {t : Term} :
    t.Truthful e methods ↔ (t.ty = .boolean → IsTruthValue (t.value e methods)) ∧
      ∀ s ∈ t.operands, s.Truthful e methods :=
  forall_mem_subterms_iff

/-- What counts as a truth value is worth one, in a truthful term. -/
theorem Truthful.of_isTruth {t : Term} (h : t.Truthful e methods) (ht : t.isTruth = true) :
    IsTruthValue (t.value e methods) := by
  cases t with
  | comparison => exact isTruthValue_truthValue _
  | leaf | arithmetic | negation | virtualCall | staticCall | unresolved =>
      exact (truthful_iff.mp h).1 (eq_of_beq ht)

theorem Truthful.operand {s t : Term} (h : t.Truthful e methods) (hs : s ∈ t.operands) :
    s.Truthful e methods :=
  (truthful_iff.mp h).2 s hs

theorem truthful_comparison {op : RelOp} {left right : Term} {ty : Ty}
    (hl : left.Truthful e methods) (hr : right.Truthful e methods) :
    (comparison op left right ty).Truthful e methods := by
  refine truthful_iff.mpr ⟨fun _ => isTruthValue_truthValue _, fun s hs => ?_⟩
  simp only [operands, List.mem_cons, List.not_mem_nil, or_false] at hs
  rcases hs with rfl | rfl
  · exact hl
  · exact hr

end Term

/-! ## What a rule does to the value -/

/-- A three-way compare stands in every relation to zero in which its operands stand. -/
theorem RelOp.holds_sign (op : RelOp) (left right : Int) :
    op.holds (left - right).sign 0 = op.holds left right := by
  rw [Bool.eq_iff_iff]
  rcases Int.lt_trichotomy left right with hlt | rfl | hgt
  · rw [Int.sign_eq_neg_one_of_neg (by omega)]
    cases op <;> simp only [holds, beq_iff_eq, bne_iff_ne, decide_eq_true_eq] <;> omega
  · rw [Int.sub_self, Int.sign_zero]
    cases op <;> simp [holds]
  · rw [Int.sign_eq_one_of_pos (by omega)]
    cases op <;> simp only [holds, beq_iff_eq, bne_iff_ne, decide_eq_true_eq] <;> omega

namespace Term

variable {e : Evaluation} {methods : MethodTable}

theorem value_opposite (x : Term) :
    x.opposite.value e methods = truthValue (x.value e methods == 0) := by
  cases x with
  | comparison op left right ty =>
      rw [opposite, value, value, RelOp.holds_complement]
      cases op.holds (left.value e methods) (right.value e methods) <;> rfl
  | leaf | arithmetic | negation | virtualCall | staticCall | unresolved => rfl

theorem truthful_opposite {x : Term} (hx : x.Truthful e methods) :
    x.opposite.Truthful e methods := by
  cases x with
  | comparison op left right ty =>
      exact truthful_comparison (hx.operand (by simp [operands])) (hx.operand (by simp [operands]))
  | leaf | arithmetic | negation | virtualCall | staticCall | unresolved =>
      refine truthful_iff.mpr ⟨fun _ => isTruthValue_truthValue _, fun s hs => ?_⟩
      cases List.mem_singleton.mp hs
      exact hx

/-- What stands for `x op 0` is worth what `x op 0` is. -/
theorem value_of_againstZero {op : RelOp} {x y : Term} (h : AgainstZero op x y)
    (hx : x.Truthful e methods) :
    y.value e methods = truthValue (op.holds (x.value e methods) 0) := by
  cases h with
  | keep htruth =>
      -- The values 0 and 1 are their own answer to whether they differ from 0.
      rcases hx.of_isTruth htruth with hzero | hone
      · rw [hzero]; rfl
      · rw [hone]; rfl
  | oppose => exact value_opposite x
  | @relate _ compare left right ty hway =>
      rw [value, value, Evaluation.ofArithmetic, if_pos hway, RelOp.holds_sign]

theorem truthful_of_againstZero {op : RelOp} {x y : Term} (h : AgainstZero op x y)
    (hx : x.Truthful e methods) : y.Truthful e methods := by
  cases h with
  | keep => exact hx
  | oppose => exact truthful_opposite hx
  | relate =>
      exact truthful_comparison (hx.operand (by simp [operands])) (hx.operand (by simp [operands]))

/-- A literal of the integer type claims nothing about truth. -/
theorem truthful_int (value : Int32) : (leaf (.int value) .int).Truthful e methods := by
  refine truthful_iff.mpr ⟨nofun, nofun⟩

end Term

namespace Rules

variable {rules : Rules} {e : Evaluation}

/-- A rule keeps the value of a truthful term. -/
theorem value_of_fires {t t' : Term} (h : rules.Fires t t') (ht : t.Truthful e rules.methods) :
    t'.value e rules.methods = t.value e rules.methods := by
  cases h with
  | method _ hfind =>
      simp only [Term.value, Term.valueOfAll, Evaluation.ofVirtualCall, hfind]
  | @fold op l r lty rty ty =>
      -- Literals are worth their integers, whatever their types.
      show Int32.toInt (if op.holds l.toInt r.toInt then 1 else 0)
        = truthValue (op.holds l.toInt r.toInt)
      cases op.holds l.toInt r.toInt <;> rfl
  | @leftZero op x y zty ty _ hknown =>
      have hx : x.Truthful e rules.methods := ht.operand (by simp [Term.operands])
      rw [Term.value_of_againstZero hknown hx, RelOp.holds_converse]
      rfl
  | swap =>
      rw [Term.value, Term.value, RelOp.holds_converse]
      rfl
  | @rightZero op x y zty ty _ hknown =>
      have hx : x.Truthful e rules.methods := ht.operand (by simp [Term.operands])
      rw [Term.value_of_againstZero hknown hx]
      rfl

theorem truthful_of_fires {t t' : Term} (h : rules.Fires t t')
    (ht : t.Truthful e rules.methods) : t'.Truthful e rules.methods := by
  cases h with
  | method =>
      exact Term.truthful_comparison (ht.operand (by simp [Term.operands]))
        (ht.operand (by simp [Term.operands]))
  | fold => exact Term.truthful_int _
  | leftZero _ hknown | rightZero _ hknown =>
      exact Term.truthful_of_againstZero hknown (ht.operand (by simp [Term.operands]))
  | swap =>
      exact Term.truthful_comparison (ht.operand (by simp [Term.operands]))
        (ht.operand (by simp [Term.operands]))

theorem step_sound {t : Term} (h : t.Truthful e rules.methods) :
    (rules.step t).value e rules.methods = t.value e rules.methods ∧
      (rules.step t).Truthful e rules.methods := by
  rw [step]
  cases hstep : rules.step? t with
  | none => exact ⟨rfl, h⟩
  | some t' =>
      have hfires := fires_of_step? hstep
      exact ⟨value_of_fires hfires h, truthful_of_fires hfires h⟩

/-- Rewriting keeps the value of a truthful term, and keeps it truthful. -/
theorem rewrite_sound {t : Term} (h : t.Truthful e rules.methods) :
    (rules.rewrite t).value e rules.methods = t.value e rules.methods ∧
      (rules.rewrite t).Truthful e rules.methods := by
  induction t using Term.induct with
  | node t ih =>
      have hoperands := fun s hs => ih s hs (h.operand hs)
      have hvalue := Term.value_mapOperands fun s hs => (hoperands s hs).1
      -- The term over the rewritten operands is of the same type and worth the same.
      have htruthful : (t.mapOperands rules.rewrite).Truthful e rules.methods := by
        refine Term.truthful_iff.mpr ⟨?_, fun s hs => ?_⟩
        · rw [Term.ty_mapOperands, hvalue]
          exact (Term.truthful_iff.mp h).1
        · rw [Term.operands_mapOperands] at hs
          obtain ⟨o, ho, rfl⟩ := List.mem_map.mp hs
          exact (hoperands o ho).2
      obtain ⟨hstep, hkept⟩ := step_sound htruthful
      rw [rewrite_eq]
      exact ⟨hstep.trans hvalue, hkept⟩

theorem value_iterate_rewrite {t : Term} (h : t.Truthful e rules.methods) (k : Nat) :
    (rules.rewrite^[k] t).value e rules.methods = t.value e rules.methods := by
  induction k generalizing t with
  | zero => rfl
  | succ k ih =>
      obtain ⟨hvalue, hkept⟩ := rewrite_sound h
      rw [Function.iterate_succ_apply, ih hkept, hvalue]

end Rules

end ValueGraph
