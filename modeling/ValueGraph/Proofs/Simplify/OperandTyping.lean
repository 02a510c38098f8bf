/-
  ValueGraph.Proofs.Simplify.OperandTyping

  What a run leaves of the types of operands.

  A negation demands an operand of the boolean type, and arithmetic other than a
  three-way compare an operand on the left that has its own type (`Node.demand?`).
  A run decides equalities of literals by integer literals, and it puts truth
  values of the boolean type in the place of calls, whatever their types were; the
  nodes above keep their types all the same.  So demands that were met before a run
  need not be met afterwards (`simplify_breaks_operand_types`), but nothing else
  than these two things can have happened (`simplify_keeps_operand_types`).
-/
import ValueGraph.Proofs.Simplify.Run
import ValueGraph.Proofs.Simplify.Typing
import ValueGraph.Proofs.Term.OperandTyping

namespace ValueGraph

namespace Node

/-- The operand of which a node demands a type, and this type. -/
def demand? (node : Node) : Option (NodeId × Ty) :=
  match node.kind with
  | .negation operand => some (operand, .boolean)
  | .arithmetic op left _ => if op.isThreeWay then none else some (left, node.ty)
  | _ => none

/-- The node is of the type. -/
def HasType (node : Node) (ty : Ty) : Prop := node.ty = ty

/-- The node is of the type, or a literal that decides a truth value. -/
def Fits (node : Node) (ty : Ty) : Prop :=
  node.ty = ty ∨ ty = .boolean ∧ ∃ holds : Bool, node = .truth holds

/-- The node is of the type, or a truth value: a comparison, anything else of the boolean type, or
    a literal that decides one. -/
def FitsLoosely (node : Node) (ty : Ty) : Prop :=
  node.ty = ty ∨ (node.isComparison || node.ty.isBoolean) = true ∨
    ∃ holds : Bool, node = .truth holds

end Node

namespace Graph

/-- Everything that the nodes below a root demand is met in some sense. -/
def Demands (g : Graph) (R : Node → Ty → Prop) (root : NodeId) : Prop :=
  ∀ id, g.Reaches root id → ∀ node, g.node id = .ok node →
    ∀ x ty, node.demand? = some (x, ty) → ∃ operand, g.node x = .ok operand ∧ R operand ty

variable {g : Graph} {root id : NodeId} {node : Node} {t : Term} {ty : Ty}
  {R : Node → Ty → Prop} {Q : Term → Ty → Prop}

theorem Unfolds.exists_node_iff (hRQ : ∀ node t ty, g.Spells node t → (R node ty ↔ Q t ty))
    (hid : g.Unfolds id t) : (∃ node, g.node id = .ok node ∧ R node ty) ↔ Q t ty := by
  obtain ⟨hread, hspells⟩ := hid
  rw [← hRQ _ _ ty hspells]
  constructor
  · rintro ⟨node, hread', hnode⟩
    cases hread.symm.trans hread'
    exact hnode
  · exact fun hnode => ⟨_, hread, hnode⟩

/-- A node demands a type of an operand that stands for the one of which its term demands it. -/
theorem Spells.demand?_rel (hspells : g.Spells node t) :
    Option.Rel (fun a b => g.Unfolds a.1 b.1 ∧ a.2 = b.2) node.demand? t.demand? := by
  cases hspells with
  | negation hx => exact .some ⟨hx, rfl⟩
  | arithmetic hl _ =>
      simp only [Node.demand?, Term.demand?]
      split
      · exact .none
      · exact .some ⟨hl, rfl⟩
  | leaf | comparison | virtualCall | staticCall => exact .none

theorem Unfolds.demand_iff (hRQ : ∀ node t ty, g.Spells node t → (R node ty ↔ Q t ty))
    (hid : g.Unfolds id t) :
    (∀ node, g.node id = .ok node → ∀ x ty, node.demand? = some (x, ty) →
        ∃ operand, g.node x = .ok operand ∧ R operand ty) ↔
      ∀ x ty, t.demand? = some (x, ty) → Q x ty := by
  cases hid with | @stored _ node _ hread hspells =>
  -- Both demand nothing, or they demand a type of operands that stand for each other.
  have hrel := hspells.demand?_rel
  constructor
  · intro h y ty hy
    rw [hy] at hrel
    cases hnode : node.demand? with
    | none => rw [hnode] at hrel; cases hrel
    | some demand =>
        obtain ⟨x, ty'⟩ := demand
        rw [hnode] at hrel
        cases hrel with | some hx =>
        obtain ⟨hx, rfl⟩ := hx
        exact (hx.exists_node_iff hRQ).mp (h node hread x ty' hnode)
  · intro h node' hread' x ty hx
    cases hread.symm.trans hread'
    rw [hx] at hrel
    cases hterm : t.demand? with
    | none => rw [hterm] at hrel; cases hrel
    | some demand =>
        obtain ⟨y, ty'⟩ := demand
        rw [hterm] at hrel
        cases hrel with | some hy =>
        obtain ⟨hy, rfl⟩ := hy
        exact (hy.exists_node_iff hRQ).mpr (h y ty hterm)

theorem demands_iff (hRQ : ∀ node t ty, g.Spells node t → (R node ty ↔ Q t ty))
    (hroot : g.Unfolds root t) : g.Demands R root ↔ t.Demands Q :=
  hroot.forall_reaches_iff fun _ _ hid => hid.demand_iff hRQ

theorem Spells.hasType_iff (hspells : g.Spells node t) : node.HasType ty ↔ t.HasType ty := by
  rw [Node.HasType, hspells.ty_eq, Term.HasType]

theorem Spells.eq_truth_iff (hspells : g.Spells node t) (holds : Bool) :
    node = .truth holds ↔ t = .leaf (.int (if holds then 1 else 0)) .int := by
  cases hspells <;> simp [Node.truth, Node.int]

theorem Spells.fits_iff (hspells : g.Spells node t) : node.Fits ty ↔ t.Fits ty := by
  simp only [Node.Fits, Term.Fits, hspells.ty_eq, hspells.eq_truth_iff]

theorem Spells.fitsLoosely_iff (hspells : g.Spells node t) :
    node.FitsLoosely ty ↔ t.FitsLoosely ty := by
  have htruth : (node.isComparison || node.ty.isBoolean) = t.isTruth := by
    cases hspells <;> rfl
  simp only [Node.FitsLoosely, Term.FitsLoosely, hspells.ty_eq, hspells.eq_truth_iff, ← htruth]

theorem demands_hasType_iff (hroot : g.Unfolds root t) :
    g.Demands Node.HasType root ↔ t.Demands Term.HasType :=
  demands_iff (fun _ _ _ hspells => hspells.hasType_iff) hroot

theorem demands_fits_iff (hroot : g.Unfolds root t) :
    g.Demands Node.Fits root ↔ t.Demands Term.Fits :=
  demands_iff (fun _ _ _ hspells => hspells.fits_iff) hroot

theorem demands_fitsLoosely_iff (hroot : g.Unfolds root t) :
    g.Demands Node.FitsLoosely root ↔ t.Demands Term.FitsLoosely :=
  demands_iff (fun _ _ _ hspells => hspells.fitsLoosely_iff) hroot

end Graph

namespace Rules

variable {rules : Rules} {t : Term}

/-! ## Any number of rewritings -/

theorem demands_fitsLoosely_iterate (h : t.Demands Term.FitsLoosely) (count : Nat) :
    (rules.rewrite^[count] t).Demands Term.FitsLoosely :=
  Function.Iterate.rec _ h (fun _ hs => demands_fitsLoosely_rewrite hs rules) count

theorem demands_fits_iterate (h : t.Demands Term.Fits)
    (htyped : t.Lacks (Term.isMistyped rules.methods)) (count : Nat) :
    (rules.rewrite^[count] t).Demands Term.Fits := by
  induction count generalizing t with
  | zero => exact h
  | succ count ih =>
      rw [Function.iterate_succ_apply]
      exact ih (demands_fits_rewrite h htyped) (lacks_isMistyped_rewrite htyped rules)

theorem demands_hasType_iterate (h : t.Demands Term.HasType) (hfold : rules.groups.fold = false)
    (htyped : t.Lacks (Term.isMistyped rules.methods)) (count : Nat) :
    (rules.rewrite^[count] t).Demands Term.HasType := by
  induction count generalizing t with
  | zero => exact h
  | succ count ih =>
      rw [Function.iterate_succ_apply]
      exact ih (demands_hasType_rewrite h hfold htyped) (lacks_isMistyped_rewrite htyped rules)

end Rules

/-- What a run leaves of operand types.  Let every negation that a sound root reaches be around
    something of the boolean type, and let all arithmetic that it reaches, three-way compares apart,
    have the type of the operand on the left.  Then below any answer of a run such an operand is still
    of the type, or it has become a truth value.  If truth values are typed as such to begin with,
    then it is still of the type, or that is the boolean type and the operand has been decided; and if
    the run decides no equalities of literals, then it is of the type without exception. -/
theorem simplify_keeps_operand_types (w : Workspace) (root : NodeId) (hsound : w.graph.Sound root)
    (hdemands : w.graph.Demands Node.HasType root) (config : Config) (r : NodeId) (w' : Workspace)
    (hrun : simplify config root w = .ok (.ok r) w') :
    w'.graph.Demands Node.FitsLoosely r ∧
      (w.graph.TypesTruth .standard root →
        w'.graph.Demands Node.Fits r ∧
          (config.groups.fold = false → w'.graph.Demands Node.HasType r)) := by
  obtain ⟨t, hroot⟩ := Graph.exists_unfolds_iff.mpr hsound
  obtain ⟨-, k, hr, -⟩ := (ends_simplify hroot).of_ok hrun
  have hterm : t.Demands Term.HasType := (Graph.demands_hasType_iff hroot).mp hdemands
  constructor
  · have hloose : t.Demands Term.FitsLoosely := fun s hs x ty hx => Or.inl (hterm s hs x ty hx)
    exact (Graph.demands_fitsLoosely_iff hr).mpr (Rules.demands_fitsLoosely_iterate hloose k)
  · intro htruth
    have htyped : t.Lacks (Term.isMistyped config.toRules.methods) :=
      (Graph.typesTruth_iff hroot).mp htruth
    have hfits : t.Demands Term.Fits := fun s hs x ty hx => Or.inl (hterm s hs x ty hx)
    constructor
    · exact (Graph.demands_fits_iff hr).mpr (Rules.demands_fits_iterate hfits htyped k)
    · intro hfold
      exact (Graph.demands_hasType_iff hr).mpr
        (Rules.demands_hasType_iterate hterm hfold htyped k)

namespace Graph

/-- The negation of the comparison `1 eq 2`. -/
def negatedSample : Graph where
  nodes := #[.int 1, .int 2, .comparison .eq ⟨0⟩ ⟨1⟩, .negation ⟨2⟩]
  entries := #[]

theorem negatedSample_unfolds : negatedSample.Unfolds ⟨3⟩
    (.negation (.comparison .eq (.leaf (.int 1) .int) (.leaf (.int 2) .int) .boolean) .boolean) := by
  have hone : negatedSample.Unfolds ⟨0⟩ (.leaf (.int 1) .int) := .stored rfl .leaf
  have htwo : negatedSample.Unfolds ⟨1⟩ (.leaf (.int 2) .int) := .stored rfl .leaf
  exact .stored rfl (.negation (.stored rfl (.comparison hone htwo)))

theorem negatedSample_demands : negatedSample.Demands Node.HasType ⟨3⟩ := by
  refine (demands_hasType_iff negatedSample_unfolds).mpr ?_
  simp [Term.Demands, Term.subterms, Term.demand?, Term.HasType, Term.ty]

/-- The sum `a.equals(b) + a.equals(b)` over two string arguments, where the call is said to give
    an integer. -/
def sumSample : Graph where
  nodes := #[⟨.leaf (.arg 0), .string⟩, ⟨.leaf (.arg 1), .string⟩,
    ⟨.virtualCall .stringEquals ⟨0⟩ ⟨0, 1⟩, .int⟩, ⟨.arithmetic .add ⟨2⟩ ⟨2⟩, .int⟩]
  entries := #[⟨1⟩]

theorem sumSample_unfolds : sumSample.Unfolds ⟨3⟩
    (.arithmetic .add
      (.virtualCall .stringEquals (.leaf (.arg 0) .string) [.leaf (.arg 1) .string] .int)
      (.virtualCall .stringEquals (.leaf (.arg 0) .string) [.leaf (.arg 1) .string] .int)
      .int) := by
  have ha : sumSample.Unfolds ⟨0⟩ (.leaf (.arg 0) .string) := .stored rfl .leaf
  have hb : sumSample.Unfolds ⟨1⟩ (.leaf (.arg 1) .string) := .stored rfl .leaf
  have hcall : sumSample.Unfolds ⟨2⟩
      (.virtualCall .stringEquals (.leaf (.arg 0) .string) [.leaf (.arg 1) .string] .int) :=
    .stored rfl (.virtualCall ha rfl (.cons hb .nil))
  exact .stored rfl (.arithmetic hcall hcall)

theorem sumSample_demands : sumSample.Demands Node.HasType ⟨3⟩ := by
  refine (demands_hasType_iff sumSample_unfolds).mpr ?_
  simp [Term.Demands, Term.subterms, Term.subtermsOfAll, Term.demand?, Term.HasType, Term.ty,
    ArithOp.isThreeWay]

/-- One node around an operand of another type is enough. -/
theorem not_demands_hasType {g : Graph} {root id x : NodeId} {node operand : Node} {ty : Ty}
    (hreach : g.Reaches root id) (hread : g.node id = .ok node)
    (hdemand : node.demand? = some (x, ty)) (hoperand : g.node x = .ok operand)
    (hty : operand.ty ≠ ty) : ¬ g.Demands Node.HasType root := by
  intro h
  obtain ⟨found, hfound, hmeets⟩ := h id hreach node hread x ty hdemand
  cases hoperand.symm.trans hfound
  exact hty hmeets

end Graph

/-- The decided equality is an integer under a negation of the boolean type; undecided it keeps its
    type. -/
theorem simplify_keeps_operand_types_sample :
    Graph.negatedSample.Sound ⟨3⟩ ∧ Graph.negatedSample.Demands Node.HasType ⟨3⟩ ∧
      Graph.negatedSample.TypesTruth .standard ⟨3⟩ ∧
      (∃ w', simplify .standard ⟨3⟩ (.ofGraph .negatedSample) = .ok (.ok ⟨5⟩) w' ∧
        w'.graph.node ⟨5⟩ = .ok (.negation ⟨4⟩) ∧ w'.graph.node ⟨4⟩ = .ok (.truth false) ∧
        w'.graph.Demands Node.Fits ⟨5⟩) ∧
      ∃ w', simplify ⟨⟨false, true, true⟩, 1, false⟩ ⟨3⟩ (.ofGraph .negatedSample)
          = .ok (.ok ⟨3⟩) w' ∧ w'.graph.Demands Node.HasType ⟨3⟩ := by
  have hsound : Graph.negatedSample.Sound ⟨3⟩ :=
    Graph.exists_unfolds_iff.mp ⟨_, Graph.negatedSample_unfolds⟩
  have htruth : Graph.negatedSample.TypesTruth .standard ⟨3⟩ := by
    refine (Graph.typesTruth_iff Graph.negatedSample_unfolds).mpr ?_
    simp [Term.Lacks, Term.subterms, Term.isMistyped, Term.isRelational, Term.isComparison,
      Term.isComparingCall, Term.ty, Ty.isBoolean]
  obtain ⟨w', hrun, hnode, hoperand⟩ :
      ∃ w', simplify .standard ⟨3⟩ (.ofGraph .negatedSample) = .ok (.ok ⟨5⟩) w' ∧
        w'.graph.node ⟨5⟩ = .ok (.negation ⟨4⟩) ∧ w'.graph.node ⟨4⟩ = .ok (.truth false) :=
    ⟨_, rfl, rfl, rfl⟩
  obtain ⟨w'', hrun'⟩ : ∃ w'', simplify ⟨⟨false, true, true⟩, 1, false⟩ ⟨3⟩
      (.ofGraph .negatedSample) = .ok (.ok ⟨3⟩) w'' := ⟨_, rfl⟩
  have hkeeps := simplify_keeps_operand_types (.ofGraph .negatedSample) ⟨3⟩ hsound
    Graph.negatedSample_demands
  have hdecided := ((hkeeps .standard ⟨5⟩ w' hrun).2 htruth).1
  have hundecided := ((hkeeps ⟨⟨false, true, true⟩, 1, false⟩ ⟨3⟩ w'' hrun').2 htruth).2 rfl
  exact ⟨hsound, Graph.negatedSample_demands, htruth, ⟨w', hrun, hnode, hoperand, hdecided⟩,
    w'', hrun', hundecided⟩

/-- Operand types do not survive in general.  A decided equality leaves an integer literal under a
    negation, and a call that is said to give an integer leaves something of the boolean type under
    a sum of integers. -/
theorem simplify_breaks_operand_types :
    (Graph.negatedSample.Sound ⟨3⟩ ∧ Graph.negatedSample.Demands Node.HasType ⟨3⟩ ∧
      ∃ w', simplify .standard ⟨3⟩ (.ofGraph .negatedSample) = .ok (.ok ⟨5⟩) w' ∧
        ¬ w'.graph.Demands Node.HasType ⟨5⟩) ∧
    (Graph.sumSample.Sound ⟨3⟩ ∧ Graph.sumSample.Demands Node.HasType ⟨3⟩ ∧
      ∃ w', simplify .standard ⟨3⟩ (.ofGraph .sumSample) = .ok (.ok ⟨5⟩) w' ∧
        ¬ w'.graph.Demands Node.HasType ⟨5⟩) := by
  constructor
  · obtain ⟨w', hrun, hnode, hoperand⟩ :
        ∃ w', simplify .standard ⟨3⟩ (.ofGraph .negatedSample) = .ok (.ok ⟨5⟩) w' ∧
          w'.graph.node ⟨5⟩ = .ok (.negation ⟨4⟩) ∧ w'.graph.node ⟨4⟩ = .ok (.truth false) :=
      ⟨_, rfl, rfl, rfl⟩
    refine ⟨Graph.exists_unfolds_iff.mp ⟨_, Graph.negatedSample_unfolds⟩,
      Graph.negatedSample_demands, w', hrun, ?_⟩
    exact Graph.not_demands_hasType (Graph.reaches_self ..) hnode rfl hoperand (by decide)
  · obtain ⟨w', hrun, hnode, hoperand⟩ :
        ∃ w', simplify .standard ⟨3⟩ (.ofGraph .sumSample) = .ok (.ok ⟨5⟩) w' ∧
          w'.graph.node ⟨5⟩ = .ok ⟨.arithmetic .add ⟨4⟩ ⟨4⟩, .int⟩ ∧
          w'.graph.node ⟨4⟩ = .ok (.comparison .eq ⟨0⟩ ⟨1⟩) :=
      ⟨_, rfl, rfl, rfl⟩
    refine ⟨Graph.exists_unfolds_iff.mp ⟨_, Graph.sumSample_unfolds⟩,
      Graph.sumSample_demands, w', hrun, ?_⟩
    exact Graph.not_demands_hasType (Graph.reaches_self ..) hnode rfl hoperand (by decide)

end ValueGraph
