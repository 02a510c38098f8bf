/-
  ValueGraph.Proofs.Rule.Orientation

  On which side of a comparison a zero stands makes no difference to the rules.

  `0 op x` and `x converse(op) 0` say the same, but they are taken apart by
  different branches of the rule for comparisons: a zero on the left is read from
  the other side, and changes sides if nothing can be said without it; a zero on
  the right only goes away or stays.  Still the rule offers the same for both,
  wherever it offers anything for the second (`compareRule?_zero_left`), so it
  does the same to a graph (`zero_sides_agree`).
-/
import ValueGraph.Proofs.History
import ValueGraph.Proofs.Rule.Firing

namespace ValueGraph

open ValueGraph.Graph (Extends)

/-! ## What the rule offers -/

section Offer

variable {groups : RuleGroups} {op : RelOp} {z x : Operand}

/-- Literals are decided alike in both orders. -/
theorem foldLiterals?_converse (op : RelOp) (left right : Operand) :
    foldLiterals? op.converse right left = foldLiterals? op left right := by
  simp only [foldLiterals?, Rules.isEquality_converse]
  cases op.isEquality <;> cases left.node.intValue? <;> cases right.node.intValue? <;>
    simp [RelOp.holds_converse]

theorem dropZero?_zero_left (hz : z.node.isIntZero = true) (hx : x.node.isIntZero = false) :
    dropZero? op z x
      = (dropZero? op.converse x z <|> some (.fresh (.comparison op.converse x.id z.id))) := by
  simp only [dropZero?, hz, hx]

/-- What is offered for `0 op x` is what is offered for `x converse(op) 0`, and if that is nothing,
    then it is this comparison itself. -/
theorem compareRule?_zero_left (hgroup : groups.zero = true) (hz : z.node.isIntZero = true)
    (hx : x.node.isIntZero = false) :
    compareRule? groups op z x
      = (compareRule? groups op.converse x z
          <|> some (.fresh (.comparison op.converse x.id z.id))) := by
  have hdrop : dropZero? op z x = _ := dropZero?_zero_left hz hx
  simp only [compareRule?, hgroup, if_true, foldLiterals?_converse, hdrop]
  cases groups.fold <;> cases foldLiterals? op z x <;> simp

end Offer

namespace Graph

variable {g h : Graph} {groups : RuleGroups} {op : RelOp} {left right id : NodeId}

theorem comparisonRule_of_zero (hgroup : groups.zero = true) {lnode rnode : Node}
    (hleft : g.node left = .ok lnode) (hright : g.node right = .ok rnode) :
    g.comparisonRule groups op left right
      = .ok (compareRule? groups op ⟨left, lnode⟩ ⟨right, rnode⟩) := by
  rw [comparisonRule, RuleGroups.readsOperands, hgroup, Bool.true_or, if_pos rfl,
    operand_of_node hleft, operand_of_node hright]
  rfl

/-! ## What it does to a graph -/

/-- An edit answers one node, which is as `post` says in the graph that the edit leaves.  At most
    that node has been stored; if there was no room for it, then nothing has. -/
def AnswersOne (g : Graph) (edit : Edit (Option NodeId)) (post : Graph → NodeId → Prop) : Prop :=
  (∃ id h, edit g = .ok (some id) h ∧ (h = g ∨ ∃ node, h = g.addNode node) ∧ post h id) ∨
    UInt32.size ≤ g.size ∧ edit g = .error (.tooManyNodes g.size) g

variable {rule : Graph → Except Fault (Option Replacement)} {replacement : Replacement}
  {node : Node} {t : Term}

theorem applyRule_of_none (hrule : rule g = .ok none) : applyRule rule g = .ok none g := by
  rw [applyRule, bind_of_ok (view_of_ok hrule)]
  rfl

theorem applyRule_stored (hrule : rule g = .ok (some (.stored id))) :
    applyRule rule g = .ok (some id) g := by
  rw [applyRule, bind_of_ok (view_of_ok hrule)]
  rfl

/-- A rule that offers a new node answers it where it has been stored. -/
theorem answersOne_fresh (hrule : rule g = .ok (some (.fresh node))) :
    g.AnswersOne (applyRule rule) fun h id =>
      g.size < UInt32.size ∧ h = g.addNode node ∧ id = ⟨.ofNat g.size⟩ := by
  rw [AnswersOne, applyRule, bind_of_ok (view_of_ok hrule)]
  rcases push_cases node g with ⟨hroom, hpush⟩ | ⟨hfull, hpush⟩
  · have hplace : Replacement.place (.fresh node) g = .ok ⟨.ofNat g.size⟩ (g.addNode node) := hpush
    exact Or.inl ⟨_, _, bind_of_ok hplace, Or.inr ⟨node, rfl⟩, hroom, rfl, rfl⟩
  · have hplace : Replacement.place (.fresh node) g = .error (.tooManyNodes g.size) g := hpush
    exact Or.inr ⟨hfull, bind_of_error hplace⟩

theorem Offers.mono (hgrown : Extends g h) (hoffers : g.Offers replacement t) :
    h.Offers replacement t := by
  cases hoffers with
  | stored hid => exact .stored (hid.mono hgrown)
  | fresh hspells => exact .fresh (hspells.mono hgrown)

theorem AnswersOne.mono {edit : Edit (Option NodeId)} {post post' : Graph → NodeId → Prop}
    (hedit : g.AnswersOne edit post) (hpost : ∀ h id, post h id → post' h id) :
    g.AnswersOne edit post' := by
  rcases hedit with ⟨id, h, hrun, hgrown, hid⟩ | hfull
  · exact Or.inl ⟨id, h, hrun, hgrown, hpost h id hid⟩
  · exact Or.inr hfull

/-- A rule that offers something for a term answers a node that stands for this term. -/
theorem answersOne_of_offers (hrule : rule g = .ok (some replacement))
    (hoffers : g.Offers replacement t) :
    g.AnswersOne (applyRule rule) fun h id => h.Unfolds id t := by
  cases hoffers with
  | @stored id t hid => exact Or.inl ⟨id, g, applyRule_stored hrule, Or.inl rfl, hid⟩
  | fresh hspells =>
      apply (answersOne_fresh hrule).mono
      rintro _ _ ⟨hroom, rfl, rfl⟩
      exact hspells.unfolds_addNode hroom

/-- Orientation does not matter.  Let `z` be the integer literal 0, let `x` be sound and not that
    literal, and let the rules about zero be among those chosen.  Then the rule for `0 op x` always
    has an answer, and the rule for `x converse(op) 0`, applied to the same graph or to any graph
    that has grown from it, either answers a node for the same term or leaves everything as it is;
    in that case the first answer is the comparison `x converse(op) 0`.  Neither stores more than the
    node it answers, and all that can stop it is that there is no room for this node. -/
theorem zero_sides_agree (g : Graph) (groups : RuleGroups) (op : RelOp) (z x : NodeId)
    (hgroup : groups.zero = true) (hz : g.Shows Node.isIntZero z) (hsound : g.Sound x)
    (hx : ¬ g.Shows Node.isIntZero x) :
    (∃ t, g.AnswersOne (applyRule (·.comparisonRule groups op z x))
          (fun g' id => g'.Unfolds id t) ∧
        ∀ h, Extends g h → h.AnswersOne (applyRule (·.comparisonRule groups op.converse x z))
          fun h' id => h'.Unfolds id t) ∨
      g.AnswersOne (applyRule (·.comparisonRule groups op z x))
          (fun g' id => g'.node id = .ok (.comparison op.converse x z)) ∧
        ∀ h, Extends g h → applyRule (·.comparisonRule groups op.converse x z) h = .ok none h := by
  obtain ⟨znode, hzread, hzero⟩ := hz
  obtain ⟨t, hxid⟩ := exists_unfolds_iff.mpr hsound
  cases hxid with | @stored _ xnode _ hxread hxspells =>
  have hxzero : xnode.isIntZero = false :=
    Bool.eq_false_of_not_eq_true fun hshown => hx ⟨xnode, hxread, hshown⟩
  obtain ⟨ty, hzspells⟩ : ∃ ty, g.Spells znode (.leaf (.int 0) ty) := by
    obtain ⟨ty, rfl⟩ := eq_leaf_of_node_isIntZero hzero
    exact ⟨ty, .leaf⟩
  -- Both rules read the same two nodes, the second one perhaps in a larger graph.
  have hfirst : g.comparisonRule groups op z x = _ := comparisonRule_of_zero hgroup hzread hxread
  rw [compareRule?_zero_left hgroup hzero hxzero] at hfirst
  have hsecond : ∀ h, Extends g h → h.comparisonRule groups op.converse x z
      = .ok (compareRule? groups op.converse ⟨x, xnode⟩ ⟨z, znode⟩) := fun h hgrown =>
    comparisonRule_of_zero hgroup (hgrown.node_eq_ok hxread) (hgrown.node_eq_ok hzread)
  obtain ⟨answer?, hagrees⟩ : ∃ answer?, Option.Rel g.Offers
      (compareRule? groups op.converse ⟨x, xnode⟩ ⟨z, znode⟩) answer? :=
    ⟨_, compareRule?_agrees (.stored hxread hxspells) hxspells (.stored hzread hzspells) hzspells
      ⟨.empty, groups⟩ op.converse .boolean⟩
  cases hanswer : compareRule? groups op.converse ⟨x, xnode⟩ ⟨z, znode⟩ with
  | none =>
      simp only [hanswer] at hfirst hsecond
      refine Or.inr ⟨?_, fun h hgrown => applyRule_of_none (hsecond h hgrown)⟩
      apply (answersOne_fresh hfirst).mono
      rintro _ _ ⟨hroom, rfl, rfl⟩
      exact node_addNode hroom _
  | some replacement =>
      simp only [hanswer] at hfirst hsecond hagrees
      cases hagrees with | some hoffers =>
      refine Or.inl ⟨_, answersOne_of_offers hfirst hoffers, fun h hgrown => ?_⟩
      exact answersOne_of_offers (hsecond h hgrown) (hoffers.mono hgrown)

/-- `0 eq (a ne 0)` and `(a ne 0) eq 0` become the same comparison. -/
theorem zero_sides_agree_sample :
    ∃ t, sample.AnswersOne (applyRule (·.comparisonRule .all .eq ⟨1⟩ ⟨2⟩))
        (fun g' id => g'.Unfolds id t) ∧
      ∀ h, Extends sample h → h.AnswersOne (applyRule (·.comparisonRule .all .eq ⟨2⟩ ⟨1⟩))
        fun h' id => h'.Unfolds id t := by
  have hreached : sample.Reaches ⟨3⟩ ⟨2⟩ := IsOperand.reaches ⟨_, rfl, by simp⟩
  have hread : ¬ sample.Shows Node.isIntZero ⟨2⟩ := by
    rintro ⟨node, hnode, hzero⟩
    cases hnode
    cases hzero
  rcases zero_sides_agree sample .all .eq ⟨1⟩ ⟨2⟩ rfl ⟨.int 0, rfl, rfl⟩
    (sample_sound.of_reaches hreached) hread with hboth | ⟨-, hunchanged⟩
  · exact hboth
  · cases hunchanged sample (.refl sample)

end Graph

end ValueGraph
