/-
  ValueGraph.Proofs.Term.Making

  What a rule puts in the place of a term.

  The answer of a rule is a truth value among the operands of the term, or the
  rule has made it: a comparison or a negation of the boolean type, or a literal
  (`Term.Fresh`).  What it makes is over operands of the term and operands of
  these (`Fires.exposes`), and a negation is never made around a comparison.

  So what is inside a rewritten term is fresh, or it is a term from before over
  rewritten operands, to which no rule applies (`lacks_rewrite`).  A property
  that no fresh term has, and that does not depend on the operands of a term, is
  lacked by a rewritten term if it was lacked before (`Lacks.rewrite`).
-/
import ValueGraph.Proofs.Term.Canonical

namespace ValueGraph

namespace Term

/-- Whether the term is a comparison. -/
def isComparison : Term → Bool
  | comparison .. => true
  | _ => false

/-- Whether the term is a call of a method in the table, with an argument. -/
def isComparingCall (methods : MethodTable) : Term → Bool
  | virtualCall sig _ args _ => (methods.find? sig).isSome && !args.isEmpty
  | _ => false

/-- Whether the term is a comparison, or a call that can be read as one. -/
def isRelational (methods : MethodTable) (t : Term) : Bool :=
  t.isComparison || t.isComparingCall methods

/-- No term inside the term has a property. -/
def Lacks (p : Term → Bool) (t : Term) : Prop := ∀ s ∈ t.subterms, p s = false

variable {p : Term → Bool} {s t x y : Term} {ts : List Term} {op : RelOp}

theorem lacks_iff : t.Lacks p ↔ p t = false ∧ ∀ o ∈ t.operands, o.Lacks p := forall_mem_subterms_iff

theorem Lacks.self (h : t.Lacks p) : p t = false := h t (mem_subterms_self t)

theorem Lacks.operand (h : t.Lacks p) {o : Term} (ho : o ∈ t.operands) : o.Lacks p :=
  (lacks_iff.mp h).2 o ho

theorem Lacks.of_mem_subterms (h : t.Lacks p) (hs : s ∈ t.subterms) : s.Lacks p :=
  fun _ hr => h _ (mem_subterms_trans hr hs)

/-! ## What does not depend on the operands -/

theorem isThreeWay_mapOperands (f : Term → Term) (t : Term) :
    (t.mapOperands f).isThreeWay = t.isThreeWay := by
  cases t <;> rfl

theorem isComparison_mapOperands (f : Term → Term) (t : Term) :
    (t.mapOperands f).isComparison = t.isComparison := by
  cases t <;> rfl

theorem isComparingCall_mapOperands (methods : MethodTable) (f : Term → Term) (t : Term) :
    (t.mapOperands f).isComparingCall methods = t.isComparingCall methods := by
  cases t with
  | virtualCall sig receiver args ty =>
      show (_ && !(args.map f).isEmpty) = (_ && !args.isEmpty)
      rw [List.isEmpty_map]
  | leaf | comparison | arithmetic | negation | staticCall | unresolved => rfl

theorem isRelational_mapOperands (methods : MethodTable) (f : Term → Term) (t : Term) :
    (t.mapOperands f).isRelational methods = t.isRelational methods := by
  rw [isRelational, isComparison_mapOperands, isComparingCall_mapOperands, isRelational]

/-! ## What a rule makes -/

/-- A term that a rule may make. -/
inductive Fresh : Term → Prop
  | comparison {op : RelOp} {left right : Term} : Fresh (.comparison op left right .boolean)
  | negation {x : Term} : x.isComparison = false → Fresh (.negation x .boolean)
  | truth {holds : Bool} : Fresh (.leaf (.int (if holds then 1 else 0)) .int)

theorem Fresh.isThreeWay (h : t.Fresh) : t.isThreeWay = false := by
  cases h <;> rfl

theorem Fresh.isComparingCall (h : t.Fresh) (methods : MethodTable) :
    t.isComparingCall methods = false := by
  cases h <;> rfl

/-- What a rule may put in the place of a term over the operands `ts`: a truth value among these,
    or something fresh over these and over the operands of these. -/
inductive Exposes (ts : List Term) : Term → Prop
  | kept {x : Term} : x ∈ ts → x.isTruth = true → Exposes ts x
  | made {t : Term} : t.Fresh → (∀ o ∈ t.operands, o ∈ ts ∨ ∃ x ∈ ts, o ∈ x.operands) →
      Exposes ts t

theorem AgainstZero.exposes (h : AgainstZero op x y) (hx : x ∈ ts) : Exposes ts y := by
  cases h with
  | keep htruth => exact .kept hx htruth
  | oppose =>
      cases x with
      | comparison op' left right ty => exact .made .comparison fun o ho => Or.inr ⟨_, hx, ho⟩
      | leaf | arithmetic | negation | virtualCall | staticCall | unresolved =>
          refine .made (.negation rfl) fun o ho => Or.inl ?_
          cases List.mem_singleton.mp ho
          exact hx
  | relate => exact .made .comparison fun o ho => Or.inr ⟨_, hx, ho⟩

/-- What is inside the answer of a rule is inside an operand, or the rule has made it. -/
theorem Exposes.mem_subterms (h : Exposes ts t) (hs : s ∈ t.subterms) :
    s.Fresh ∨ ∃ o ∈ ts, s ∈ o.subterms := by
  cases h with
  | kept hx => exact Or.inr ⟨t, hx, hs⟩
  | made hfresh hoperands =>
      rcases mem_subterms_iff.mp hs with rfl | ⟨o, ho, hs⟩
      · exact Or.inl hfresh
      · rcases hoperands o ho with hown | ⟨x, hx, hbelow⟩
        · exact Or.inr ⟨o, hown, hs⟩
        · exact Or.inr ⟨x, hx, mem_subterms_of_operand hbelow hs⟩

end Term

namespace Rules

variable {rules : Rules} {t t' : Term} {p : Term → Bool}

theorem Fires.exposes (h : rules.Fires t t') : Term.Exposes t.operands t' := by
  cases h with
  | fold => exact .made .truth nofun
  | leftZero _ hknown => exact hknown.exposes (by simp [Term.operands])
  | rightZero _ hknown => exact hknown.exposes (by simp [Term.operands])
  | swap =>
      refine .made .comparison fun o ho => Or.inl ?_
      simp only [Term.operands, List.mem_cons, List.not_mem_nil, or_false] at ho ⊢
      exact ho.symm
  | method =>
      refine .made .comparison fun o ho => Or.inl ?_
      simp only [Term.operands, List.mem_cons, List.not_mem_nil, or_false] at ho ⊢
      exact ho.imp_right Or.inl

/-- Whether the term is a comparison, or a call that the chosen rules read as one. -/
def isRelational (rules : Rules) (t : Term) : Bool :=
  t.isComparison || rules.groups.methods && t.isComparingCall rules.methods

theorem isRelational_mapOperands (f : Term → Term) (t : Term) :
    rules.isRelational (t.mapOperands f) = rules.isRelational t := by
  rw [isRelational, Term.isComparison_mapOperands, Term.isComparingCall_mapOperands, isRelational]

theorem isRelational_of_rules (h : rules.isRelational t = true) :
    t.isRelational rules.methods = true := by
  rw [isRelational, Bool.or_eq_true, Bool.and_eq_true] at h
  rw [Term.isRelational, Bool.or_eq_true]
  exact h.imp_right And.right

/-- Rules apply to nothing else. -/
theorem Fires.isRelational (h : rules.Fires t t') : rules.isRelational t = true := by
  cases h with
  | fold | leftZero | swap | rightZero => rfl
  | method hmethods hfind => simp [Rules.isRelational, hmethods, Term.isComparingCall, hfind]

/-! ## What is inside a rewritten term -/

theorem mem_operands_rewrite {o : Term} (ho : o ∈ (t.mapOperands rules.rewrite).operands) :
    ∃ s ∈ t.operands, rules.rewrite s = o := by
  rw [Term.operands_mapOperands] at ho
  exact List.mem_map.mp ho

/-- What no rule makes, and no term has over rewritten operands if it has no step, is not inside a
    rewritten term. -/
theorem lacks_rewrite (hfresh : ∀ s : Term, s.Fresh → p s = false)
    (hkept : ∀ s ∈ t.subterms, rules.step? (s.mapOperands rules.rewrite) = none →
      p (s.mapOperands rules.rewrite) = false) :
    (rules.rewrite t).Lacks p := by
  induction t using Term.induct with
  | node t ih =>
      have hoperands : ∀ o ∈ (t.mapOperands rules.rewrite).operands, o.Lacks p := by
        intro o ho
        obtain ⟨s, hs, rfl⟩ := mem_operands_rewrite ho
        exact ih s hs fun s' hs' => hkept s' (Term.mem_subterms_of_operand hs hs')
      rw [rewrite_eq, step]
      cases hstep : rules.step? (t.mapOperands rules.rewrite) with
      | none => exact Term.lacks_iff.mpr ⟨hkept t (Term.mem_subterms_self t) hstep, hoperands⟩
      | some t' =>
          intro s hs
          rcases (fires_of_step? hstep).exposes.mem_subterms hs with hnew | ⟨o, ho, hs⟩
          · exact hfresh s hnew
          · exact hoperands o ho s hs

end Rules

/-- Rewriting preserves the lack of what no rule makes and what does not depend on operands. -/
theorem Term.Lacks.rewrite {p : Term → Bool} {t : Term} (h : t.Lacks p) (rules : Rules)
    (hfresh : ∀ s : Term, s.Fresh → p s = false)
    (hlabel : ∀ (f : Term → Term) (s : Term), p (s.mapOperands f) = p s) :
    (rules.rewrite t).Lacks p := by
  refine Rules.lacks_rewrite hfresh fun s hs _ => ?_
  rw [hlabel]
  exact h s hs

namespace Rules

variable {rules : Rules} {t : Term}

/-- Rewriting makes no three-way compare. -/
theorem lacks_isThreeWay_rewrite (h : t.Lacks Term.isThreeWay) :
    (rules.rewrite t).Lacks Term.isThreeWay :=
  h.rewrite rules (fun _ hs => hs.isThreeWay) Term.isThreeWay_mapOperands

/-- Rewriting makes no call. -/
theorem lacks_isComparingCall_rewrite {methods : MethodTable}
    (h : t.Lacks (Term.isComparingCall methods)) (rules : Rules) :
    (rules.rewrite t).Lacks (Term.isComparingCall methods) :=
  h.rewrite rules (fun _ hs => hs.isComparingCall methods) (Term.isComparingCall_mapOperands methods)

/-- Rewriting leaves no call that a rule applies to. -/
theorem lacks_isComparingCall_of_methods (hmethods : rules.groups.methods = true) (t : Term) :
    (rules.rewrite t).Lacks (Term.isComparingCall rules.methods) := by
  refine lacks_rewrite (fun s hs => hs.isComparingCall rules.methods) fun s _ hnone => ?_
  generalize s.mapOperands rules.rewrite = u at hnone
  cases u with
  | virtualCall sig receiver args ty =>
      have hstep : (rules.step? (.virtualCall sig receiver args ty)).isSome = _ :=
        step?_virtualCall_isSome sig receiver args ty
      rw [hnone, hmethods, Bool.true_and] at hstep
      exact hstep.symm
  | leaf | comparison | arithmetic | negation | staticCall | unresolved => rfl

end Rules

end ValueGraph
