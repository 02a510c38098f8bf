/-
  ValueGraph.Proofs.Term.OperandTyping

  What a term demands of the type of an operand, and what is left of it after the
  term has been rewritten.

  A negation demands a truth value, and arithmetic other than a three-way compare
  an operand on the left that has its own type (`demand?`).  Rewriting leaves such
  a term as it is, but over rewritten operands, and a negation that a rule makes
  is around something of the boolean type.  So demands are met after rewriting, in
  whichever sense, if the rewritten operands meet those that there were before
  (`Demands.rewrite`).  There are three such senses:

    * The operand is of the type.  This is kept if nothing is decided
      (`demands_hasType_rewrite`).
    * It is of the type, or a literal that decides a truth value.  This is kept if
      truth values are typed as such (`demands_fits_rewrite`).
    * It is of the type, or a truth value of whichever type.  This is kept always
      (`demands_fitsLoosely_rewrite`).
-/
import ValueGraph.Proofs.Term.Typing

namespace ValueGraph

namespace Term

/-- The operand of which a term demands a type, and this type. -/
def demand? : Term → Option (Term × Ty)
  | negation x _ => some (x, .boolean)
  | arithmetic op left _ ty => if op.isThreeWay then none else some (left, ty)
  | _ => none

/-- Everything that is demanded inside a term is met in some sense. -/
def Demands (R : Term → Ty → Prop) (t : Term) : Prop :=
  ∀ s ∈ t.subterms, ∀ x ty, s.demand? = some (x, ty) → R x ty

/-- The term is of the type. -/
def HasType (t : Term) (ty : Ty) : Prop := t.ty = ty

/-- The term is of the type, or a literal that decides a truth value. -/
def Fits (t : Term) (ty : Ty) : Prop :=
  t.ty = ty ∨ ty = .boolean ∧ ∃ holds : Bool, t = .leaf (.int (if holds then 1 else 0)) .int

/-- The term is of the type, or a truth value, decided or not. -/
def FitsLoosely (t : Term) (ty : Ty) : Prop :=
  t.ty = ty ∨ t.isTruth = true ∨ ∃ holds : Bool, t = .leaf (.int (if holds then 1 else 0)) .int

variable {R : Term → Ty → Prop} {s t x l r : Term} {ty : Ty}

theorem demand?_mapOperands (f : Term → Term) (t : Term) :
    (t.mapOperands f).demand? = t.demand?.map (Prod.map f id) := by
  cases t with
  | arithmetic op left right ty =>
      simp only [mapOperands, demand?]
      split <;> rfl
  | leaf | comparison | negation | virtualCall | staticCall | unresolved => rfl

theorem mem_operands_of_demand? (h : t.demand? = some (x, ty)) : x ∈ t.operands := by
  cases t with
  | negation operand ty => cases h; simp [operands]
  | arithmetic op left right ty =>
      simp only [demand?] at h
      split at h <;> cases h
      simp [operands]
  | leaf | comparison | virtualCall | staticCall | unresolved => cases h

theorem demands_iff :
    t.Demands R ↔ (∀ x ty, t.demand? = some (x, ty) → R x ty) ∧ ∀ o ∈ t.operands, o.Demands R :=
  forall_mem_subterms_iff

theorem Demands.operand (h : t.Demands R) (hs : s ∈ t.operands) : s.Demands R :=
  (demands_iff.mp h).2 s hs

theorem demands_leaf {value : Leaf} : (leaf value ty).Demands R :=
  demands_iff.mpr ⟨nofun, nofun⟩

theorem demands_comparison {op : RelOp} (hl : l.Demands R) (hr : r.Demands R) :
    (comparison op l r ty).Demands R := by
  refine demands_iff.mpr ⟨nofun, ?_⟩
  simp [operands, hl, hr]

theorem demands_opposite (hboolean : ∀ y : Term, y.ty = .boolean → R y .boolean)
    (hx : x.Demands R) (htruth : x.isTruth = true) : x.opposite.Demands R := by
  cases x with
  | comparison op left right ty =>
      exact demands_comparison (hx.operand (by simp [operands])) (hx.operand (by simp [operands]))
  | leaf | arithmetic | negation | virtualCall | staticCall | unresolved =>
      -- What is no comparison counts as a truth value by its type.
      refine demands_iff.mpr ⟨?_, ?_⟩
      · rintro y ty ⟨⟩
        exact hboolean _ (eq_of_beq htruth)
      · simpa [operands, opposite] using hx

theorem AgainstZero.demands {op : RelOp} {y : Term} (h : AgainstZero op x y)
    (hboolean : ∀ y : Term, y.ty = .boolean → R y .boolean) (hx : x.Demands R) : y.Demands R := by
  cases h with
  | keep => exact hx
  | oppose htruth => exact demands_opposite hboolean hx htruth
  | relate =>
      exact demands_comparison (hx.operand (by simp [operands])) (hx.operand (by simp [operands]))

theorem AgainstZero.ty_eq_boolean {methods : MethodTable} {op : RelOp} {y : Term}
    (h : AgainstZero op x y) (hx : x.isMistyped methods = false) : y.ty = .boolean := by
  cases h with
  | keep htruth => exact ty_eq_boolean_of_isTruth hx htruth
  | oppose => cases x <;> rfl
  | relate => rfl

/-- The answer of a rule is a truth value, or a literal that decides one. -/
theorem Exposes.isTruth_or {ts : List Term} (h : Exposes ts t) :
    t.isTruth = true ∨ ∃ holds : Bool, t = .leaf (.int (if holds then 1 else 0)) .int := by
  cases h with
  | kept _ htruth => exact Or.inl htruth
  | made hfresh =>
      cases hfresh with
      | comparison | negation => exact Or.inl rfl
      | truth => exact Or.inr ⟨_, rfl⟩

theorem isTruth_mapOperands (f : Term → Term) (t : Term) :
    (t.mapOperands f).isTruth = t.isTruth := by
  cases t <;> rfl

end Term

namespace Rules

variable {rules : Rules} {R : Term → Ty → Prop} {t t' x : Term} {ty : Ty}

/-- What a rule makes demands nothing new, except of what is of the boolean type. -/
theorem Fires.demands (h : rules.Fires t t')
    (hboolean : ∀ y : Term, y.ty = .boolean → R y .boolean)
    (hoperands : ∀ o ∈ t.operands, o.Demands R) : t'.Demands R := by
  cases h with
  | method =>
      exact Term.demands_comparison (hoperands _ (by simp [Term.operands]))
        (hoperands _ (by simp [Term.operands]))
  | fold => exact Term.demands_leaf
  | leftZero _ hknown | rightZero _ hknown =>
      exact hknown.demands hboolean (hoperands _ (by simp [Term.operands]))
  | swap =>
      exact Term.demands_comparison (hoperands _ (by simp [Term.operands]))
        (hoperands _ (by simp [Term.operands]))

end Rules

/-- Everything is met in a rewritten term, if the rewritten operands meet what was demanded of them
    before. -/
theorem Term.Demands.rewrite {R : Term → Ty → Prop} {t : Term} (rules : Rules)
    (hboolean : ∀ y : Term, y.ty = .boolean → R y .boolean)
    (h : t.Demands fun x ty => R (rules.rewrite x) ty) : (rules.rewrite t).Demands R := by
  induction t using Term.induct with
  | node t ih =>
      have hoperands : ∀ o ∈ (t.mapOperands rules.rewrite).operands, o.Demands R := by
        intro o ho
        obtain ⟨s, hs, rfl⟩ := Rules.mem_operands_rewrite ho
        exact ih s hs (h.operand hs)
      rw [Rules.rewrite_eq, Rules.step]
      cases hstep : rules.step? (t.mapOperands rules.rewrite) with
      | some t' => exact (Rules.fires_of_step? hstep).demands hboolean hoperands
      | none =>
          refine Term.demands_iff.mpr ⟨fun x ty hx => ?_, hoperands⟩
          rw [Option.getD_none, Term.demand?_mapOperands, Option.map_eq_some_iff] at hx
          obtain ⟨⟨y, ty'⟩, hy, hsame⟩ := hx
          cases hsame
          exact (Term.demands_iff.mp h).1 y ty' hy

namespace Rules

variable {rules : Rules} {R : Term → Ty → Prop} {t t' x : Term} {ty : Ty}

/-! ## Any types -/

theorem fitsLoosely_rewrite (h : x.FitsLoosely ty) (rules : Rules) :
    (rules.rewrite x).FitsLoosely ty := by
  rw [rewrite_eq, step]
  cases hstep : rules.step? (x.mapOperands rules.rewrite) with
  | some t' => exact Or.inr (fires_of_step? hstep).exposes.isTruth_or
  | none =>
      rw [Option.getD_none]
      rcases h with hty | htruth | ⟨holds, rfl⟩
      · exact Or.inl ((Term.ty_mapOperands ..).trans hty)
      · exact Or.inr (Or.inl ((Term.isTruth_mapOperands ..).trans htruth))
      · exact Or.inr (Or.inr ⟨holds, rfl⟩)

theorem demands_fitsLoosely_rewrite (h : t.Demands Term.FitsLoosely) (rules : Rules) :
    (rules.rewrite t).Demands Term.FitsLoosely :=
  .rewrite rules (fun _ hy => Or.inl hy) fun s hs x ty hx =>
    fitsLoosely_rewrite (h s hs x ty hx) rules

/-! ## Well-typed truth values -/

theorem fits_rewrite (h : x.Fits ty) (htyped : x.Lacks (Term.isMistyped rules.methods)) :
    (rules.rewrite x).Fits ty := by
  rcases h with rfl | ⟨rfl, holds, rfl⟩
  · exact keepsType_rewrite htyped
  · rw [(canonical_leaf _ _).rewrite_eq]
    exact Or.inr ⟨rfl, holds, rfl⟩

theorem demands_fits_rewrite (h : t.Demands Term.Fits)
    (htyped : t.Lacks (Term.isMistyped rules.methods)) : (rules.rewrite t).Demands Term.Fits := by
  refine .rewrite rules (fun _ hy => Or.inl hy) fun s hs x ty hx => ?_
  have hoperand : x.Lacks (Term.isMistyped rules.methods) :=
    (htyped.of_mem_subterms hs).operand (Term.mem_operands_of_demand? hx)
  exact fits_rewrite (h s hs x ty hx) hoperand

/-! ## Nothing decided -/

/-- If equalities of literals are not decided, then rules answer something of the boolean type. -/
theorem Fires.ty_eq_boolean (h : rules.Fires t t') (hfold : rules.groups.fold = false)
    (hoperands : ∀ o ∈ t.operands, o.isMistyped rules.methods = false) : t'.ty = .boolean := by
  cases h with
  | method | swap => rfl
  | fold hgroup => rw [hfold] at hgroup; cases hgroup
  | leftZero _ hknown | rightZero _ hknown =>
      exact hknown.ty_eq_boolean (hoperands _ (by simp [Term.operands]))

theorem ty_rewrite (hfold : rules.groups.fold = false)
    (htyped : t.Lacks (Term.isMistyped rules.methods)) : (rules.rewrite t).ty = t.ty := by
  rw [rewrite_eq, step]
  cases hstep : rules.step? (t.mapOperands rules.rewrite) with
  | none => exact Term.ty_mapOperands ..
  | some t' =>
      have hfires := fires_of_step? hstep
      have hrelational : t.isRelational rules.methods = true := by
        rw [← Term.isRelational_mapOperands]
        exact isRelational_of_rules hfires.isRelational
      have hty : t.ty = .boolean := Term.ty_eq_boolean_of_isRelational htyped.self hrelational
      rw [Option.getD_some, hty]
      apply hfires.ty_eq_boolean hfold
      intro o ho
      obtain ⟨s, hs, rfl⟩ := mem_operands_rewrite ho
      exact (lacks_isMistyped_rewrite (htyped.operand hs) rules).self

theorem demands_hasType_rewrite (h : t.Demands Term.HasType) (hfold : rules.groups.fold = false)
    (htyped : t.Lacks (Term.isMistyped rules.methods)) :
    (rules.rewrite t).Demands Term.HasType := by
  refine .rewrite rules (fun _ hy => hy) fun s hs x ty hx => ?_
  have hoperand : x.Lacks (Term.isMistyped rules.methods) :=
    (htyped.of_mem_subterms hs).operand (Term.mem_operands_of_demand? hx)
  exact (ty_rewrite hfold hoperand).trans (h s hs x ty hx)

end Rules

end ValueGraph
