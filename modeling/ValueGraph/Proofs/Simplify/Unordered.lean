/-
  ValueGraph.Proofs.Simplify.Unordered

  What a run makes of floats that are not ordered.

  The nodes below a root are put together from floats: integer literals and
  arguments, three-way compares of floats, comparisons and negations.  A run with
  the standard settings then keeps the values of all of them exactly if it misreads
  none (`simplify_reads_floats`): a comparison with zero, over the images of its
  operands, is misread if it says something else without the zero.  It may be
  (`simplify_misreads_unordered`), but not where nothing is confused to begin with,
  that is, where the unordered value is compared for equality only; then a run
  keeps the value of its root, whatever its settings are.
-/
import ValueGraph.Proofs.Graph.Showing
import ValueGraph.Proofs.Simplify.Succession
import ValueGraph.Proofs.Term.Unordered

namespace ValueGraph

/-- Whether the node is none of those that are put together from floats. -/
def Node.isForeign (node : Node) : Bool :=
  match node.kind with
  | .leaf (.int _) | .leaf (.arg _) => node.ty.isBoolean
  | .arithmetic .cmpl _ _ | .arithmetic .cmpg _ _ => node.ty.isBoolean
  | .comparison .. | .negation _ => false
  | _ => true

namespace Graph

/-- What a node is worth among floats. -/
def Worth (g : Graph) (a : UInt16 → FloatValue) (id : NodeId) (value : FloatValue) : Prop :=
  ∃ t, g.Unfolds id t ∧ t.floatValue a = value

/-- The node stored under `new` in `h` is worth what the one under `id` in `g` is. -/
def KeepsWorth (g : Graph) (a : UInt16 → FloatValue) (id : NodeId) (h : Graph) (new : NodeId) :
    Prop :=
  ∃ value, g.Worth a id value ∧ h.Worth a new value

/-- A node compares with the unordered value, by an ordering or a three-way compare. -/
def Confuses (g : Graph) (a : UInt16 → FloatValue) (id : NodeId) : Prop :=
  ∃ t, g.Unfolds id t ∧ t.isConfused a = true

end Graph

/-- A comparison in `g`, over the images of its operands, is one with zero that says something else
    without the zero. -/
def Workspace.Misreads (v : Workspace) (g : Graph) (a : UInt16 → FloatValue) (id : NodeId) : Prop :=
  ∃ op left right ty newLeft newRight l r,
    g.node id = .ok ⟨.comparison op left right, ty⟩ ∧
    v.images[left]? = some newLeft ∧ v.graph.Unfolds newLeft l ∧
    v.images[right]? = some newRight ∧ v.graph.Unfolds newRight r ∧
    (Term.comparison op l r ty).isMisread a = true

namespace Graph

variable {g h : Graph} {a : UInt16 → FloatValue} {root id new : NodeId} {node : Node} {s t : Term}

theorem Spells.isForeign_eq (hspells : g.Spells node t) : node.isForeign = t.isForeign := by
  cases hspells with
  | @leaf value ty => cases value <;> rfl
  | @arithmetic op left right l r ty => cases op <;> rfl
  | comparison | negation | virtualCall | staticCall => rfl

theorem keepsWorth_iff (hid : g.Unfolds id s) (hnew : h.Unfolds new t) :
    g.KeepsWorth a id h new ↔ t.floatValue a = s.floatValue a := by
  constructor
  · rintro ⟨value, ⟨s', hid', hs'⟩, t', hnew', ht'⟩
    cases hid.unique hid'
    cases hnew.unique hnew'
    rw [ht', hs']
  · exact fun hsame => ⟨_, ⟨s, hid, rfl⟩, t, hnew, hsame⟩

theorem lacks_isConfused_iff (hroot : g.Unfolds root t) :
    (∀ id, g.Reaches root id → ¬ g.Confuses a id) ↔ t.Lacks (Term.isConfused a) := by
  refine hroot.forall_reaches_iff fun id s hid => ?_
  rw [← Bool.not_eq_true]
  refine not_congr ⟨?_, fun hs => ⟨s, hid, hs⟩⟩
  rintro ⟨s', hid', hs'⟩
  cases hid.unique hid'
  exact hs'

end Graph

namespace Rules

variable {rules : Rules} {w v : Workspace} {a : UInt16 → FloatValue} {root id : NodeId} {s t : Term}

theorem Finishes.exists_unfolds (h : rules.Finishes root w v) (hreach : w.graph.Reaches root id)
    (hid : w.graph.Unfolds id s) :
    ∃ new, v.images[id]? = some new ∧ v.graph.Unfolds new (rules.rewrite s) := by
  obtain ⟨new, hnew⟩ := h.exists_image id hreach
  obtain ⟨-, s', hid', himage⟩ := h.of_image id new hnew
  cases hid.unique hid'
  exact ⟨new, hnew, himage⟩

theorem Finishes.keepsWorth_iff (h : rules.Finishes root w v) (hreach : w.graph.Reaches root id)
    (hid : w.graph.Unfolds id s) :
    (∃ new, v.images[id]? = some new ∧ w.graph.KeepsWorth a id v.graph new) ↔
      (rules.rewrite s).floatValue a = s.floatValue a := by
  obtain ⟨new, hnew, himage⟩ := h.exists_unfolds hreach hid
  rw [← Graph.keepsWorth_iff hid himage]
  constructor
  · rintro ⟨new', hnew', hkept⟩
    cases hnew.symm.trans hnew'
    exact hkept
  · exact fun hkept => ⟨new, hnew, hkept⟩

/-- What a pass misreads is told by the term over the rewritten operands. -/
theorem Finishes.misreads_iff (h : rules.Finishes root w v) (hreach : w.graph.Reaches root id)
    (hid : w.graph.Unfolds id s) :
    v.Misreads w.graph a id ↔ (s.mapOperands rules.rewrite).isMisread a = true := by
  obtain ⟨hread, hspells⟩ := hid
  cases hspells with
  | @comparison op left right l r ty hl hr =>
      have hleft : w.graph.Reaches root left :=
        hreach.trans (Graph.IsOperand.reaches (Graph.isOperand_of_node hread rfl (by simp)))
      have hright : w.graph.Reaches root right :=
        hreach.trans (Graph.IsOperand.reaches (Graph.isOperand_of_node hread rfl (by simp)))
      -- The images that a misreading names are the ones that stand for the rewritten operands.
      obtain ⟨newLeft, hnewLeft, hl'⟩ := h.exists_unfolds hleft hl
      obtain ⟨newRight, hnewRight, hr'⟩ := h.exists_unfolds hright hr
      constructor
      · rintro ⟨_, _, _, _, _, _, _, _, hread', hnewLeft', hl'', hnewRight', hr'', hmisread⟩
        cases hread.symm.trans hread'
        cases hnewLeft.symm.trans hnewLeft'
        cases hnewRight.symm.trans hnewRight'
        cases hl'.unique hl''
        cases hr'.unique hr''
        exact hmisread
      · intro hmisread
        exact ⟨op, left, right, ty, newLeft, newRight, _, _, hread, hnewLeft, hl', hnewRight, hr',
          hmisread⟩
  | leaf | arithmetic | negation | virtualCall | staticCall =>
      refine iff_of_false ?_ nofun
      rintro ⟨_, _, _, _, _, _, _, _, hread', -⟩
      cases hread.symm.trans hread'

end Rules

variable {w : Workspace} {root : NodeId}

/-- A run with the standard settings is a single pass. -/
theorem ends_simplify_standard {post : NodeId → Workspace → Prop} {stop : Workspace → Prop}
    (hstored : w.graph.contains root = true)
    (hpass : Ends (Rules.pass ⟨.standard, .all⟩ 1 root) (w.started .standard root) post stop) :
    Ends (simplify .standard root) w (fun answer v => ∃ r, answer = .ok r ∧ post r v) stop := by
  have hpasses : Ends (Rules.passes ⟨.standard, .all⟩ 1 1 root) (w.started .standard root)
      (fun answer v => post answer.1 v) stop := by
    refine hpass.bind fun image v himage => ?_
    by_cases hkept : image = root
    · rw [if_pos hkept]
      exact Ends.pure (hkept ▸ himage)
    · rw [if_neg hkept]
      exact Ends.pure himage
  rw [Ends, simplify_eq_conclude hstored]
  refine hpasses.bind ?_
  rintro ⟨current, settled⟩ v hcurrent
  have hfree : ¬ Config.standard.mustSettle = true := Bool.false_ne_true
  rw [Config.conclude, if_pos (Or.inr hfree)]
  exact Ends.pure ⟨current, rfl, hcurrent⟩

/-- What a run makes of floats.  Let every node that a sound root reaches be put together from
    floats, and let `a` tell what the arguments are.  Then a run with the standard settings answers,
    unless the graph is full, and it keeps the worth of the root and of every node that the root
    reaches exactly if it misreads none of these nodes.  If none of them compares with the unordered
    value except for equality, then a run with any settings keeps the worth of the root. -/
theorem simplify_reads_floats (a : UInt16 → FloatValue) (w : Workspace) (root : NodeId)
    (hsound : w.graph.Sound root) (hstored : w.graph.contains root = true)
    (hfloats : ∀ id, w.graph.Reaches root id → ¬ w.graph.Shows Node.isForeign id) :
    Ends (simplify .standard root) w
      (fun answer v => ∃ r, answer = .ok r ∧
        ((w.graph.KeepsWorth a root v.graph r ∧ ∀ id, w.graph.Reaches root id →
            ∃ new, v.images[id]? = some new ∧ w.graph.KeepsWorth a id v.graph new) ↔
          ∀ id, w.graph.Reaches root id → ¬ v.Misreads w.graph a id))
      (·.graph.Full) ∧
    ((∀ id, w.graph.Reaches root id → ¬ w.graph.Confuses a id) →
      ∀ (config : Config) (r : NodeId) (w' : Workspace),
        simplify config root w = .ok (.ok r) w' → w.graph.KeepsWorth a root w'.graph r) := by
  obtain ⟨t, hroot⟩ := Graph.exists_unfolds_iff.mpr hsound
  have hterm : t.Lacks Term.isForeign :=
    (hroot.lacks_iff fun _ _ hspells => hspells.isForeign_eq).mp hfloats
  constructor
  · have hroot' : (w.started .standard root).graph.Unfolds root t := hroot
    refine ends_simplify_standard hstored ?_
    refine ((Rules.ends_pass_rewrites hroot' 1).and (Rules.ends_pass_finishes hroot' 1)).mono ?_
    rintro r v ⟨hpassed, hfinishes⟩
    have himages : (∀ id, w.graph.Reaches root id →
          ∃ new, v.images[id]? = some new ∧ w.graph.KeepsWorth a id v.graph new) ↔
        ∀ s ∈ t.subterms, (Rules.rewrite ⟨.standard, .all⟩ s).floatValue a = s.floatValue a :=
      hroot.forall_reached_iff fun id s hreach hid => hfinishes.keepsWorth_iff hreach hid
    have hmisreads : (∀ id, w.graph.Reaches root id → ¬ v.Misreads w.graph a id) ↔
        ∀ s ∈ t.subterms,
          (s.mapOperands (Rules.rewrite ⟨.standard, .all⟩)).isMisread a = false :=
      hroot.forall_reached_iff fun id s hreach hid =>
        (not_congr (hfinishes.misreads_iff hreach hid)).trans (Bool.not_eq_true _).to_iff
    rw [hmisreads, ← Rules.floatValue_rewrite_iff rfl hterm, ← himages]
    -- The answer stands for the same term as the image of the root.
    refine and_iff_right_of_imp fun hkept => ?_
    have hsame := himages.mp hkept t (Term.mem_subterms_self t)
    exact (Graph.keepsWorth_iff hroot hpassed.term).mpr hsame
  · intro hclear config r w' hrun
    obtain ⟨-, k, hr, -⟩ := (ends_simplify hroot).of_ok hrun
    have hordered : t.Lacks (Term.isConfused a) := (Graph.lacks_isConfused_iff hroot).mp hclear
    exact (Graph.keepsWorth_iff hroot hr).mpr (Rules.floatValue_iterate hterm hordered k)

/-! ## Small graphs -/

/-- The first argument is unordered, all others are 0. -/
def firstUnordered (position : UInt16) : FloatValue :=
  if position = 0 then .unordered else .ordered 0

namespace Graph

/-- The comparison `cmpl(a, b) lt 0` of two float arguments. -/
def compareSample : Graph where
  nodes := #[⟨.leaf (.arg 0), .double⟩, ⟨.leaf (.arg 1), .double⟩,
    ⟨.arithmetic .cmpl ⟨0⟩ ⟨1⟩, .int⟩, .int 0, .comparison .lt ⟨2⟩ ⟨3⟩]
  entries := #[]

theorem compareSample_unfolds : compareSample.Unfolds ⟨4⟩
    (.comparison .lt
      (.arithmetic .cmpl (.leaf (.arg 0) .double) (.leaf (.arg 1) .double) .int)
      (.leaf (.int 0) .int) .boolean) := by
  have ha : compareSample.Unfolds ⟨0⟩ (.leaf (.arg 0) .double) := .stored rfl .leaf
  have hb : compareSample.Unfolds ⟨1⟩ (.leaf (.arg 1) .double) := .stored rfl .leaf
  have hzero : compareSample.Unfolds ⟨3⟩ (.leaf (.int 0) .int) := .stored rfl .leaf
  exact .stored rfl (.comparison (.stored rfl (.arithmetic ha hb)) hzero)

/-- The comparison `(a op b) eq 0` of two float arguments. -/
def invertedSample (op : RelOp) : Graph where
  nodes := #[⟨.leaf (.arg 0), .double⟩, ⟨.leaf (.arg 1), .double⟩,
    .comparison op ⟨0⟩ ⟨1⟩, .int 0, .comparison .eq ⟨2⟩ ⟨3⟩]
  entries := #[]

theorem invertedSample_unfolds (op : RelOp) : (invertedSample op).Unfolds ⟨4⟩
    (.comparison .eq
      (.comparison op (.leaf (.arg 0) .double) (.leaf (.arg 1) .double) .boolean)
      (.leaf (.int 0) .int) .boolean) := by
  have ha : (invertedSample op).Unfolds ⟨0⟩ (.leaf (.arg 0) .double) := .stored rfl .leaf
  have hb : (invertedSample op).Unfolds ⟨1⟩ (.leaf (.arg 1) .double) := .stored rfl .leaf
  have hzero : (invertedSample op).Unfolds ⟨3⟩ (.leaf (.int 0) .int) := .stored rfl .leaf
  exact .stored rfl (.comparison (.stored rfl (.comparison ha hb)) hzero)

theorem invertedSample_floats (op : RelOp) :
    ∀ id, (invertedSample op).Reaches ⟨4⟩ id →
      ¬ (invertedSample op).Shows Node.isForeign id := by
  refine ((invertedSample_unfolds op).lacks_iff fun _ _ hspells => hspells.isForeign_eq).mpr ?_
  simp [Term.Lacks, Term.subterms, Term.isForeign, Ty.isBoolean]

theorem compareSample_floats :
    ∀ id, compareSample.Reaches ⟨4⟩ id → ¬ compareSample.Shows Node.isForeign id := by
  refine (compareSample_unfolds.lacks_iff fun _ _ hspells => hspells.isForeign_eq).mpr ?_
  simp [Term.Lacks, Term.subterms, Term.isForeign, Ty.isBoolean]

end Graph

/-- An inequality says of an unordered argument what the inverted equality has said. -/
theorem simplify_reads_floats_sample :
    (Graph.invertedSample .eq).Sound ⟨4⟩ ∧
      (∀ id, (Graph.invertedSample .eq).Reaches ⟨4⟩ id →
        ¬ (Graph.invertedSample .eq).Shows Node.isForeign id) ∧
      (∀ id, (Graph.invertedSample .eq).Reaches ⟨4⟩ id →
        ¬ (Graph.invertedSample .eq).Confuses firstUnordered id) ∧
      ∃ w', simplify .standard ⟨4⟩ (.ofGraph (.invertedSample .eq)) = .ok (.ok ⟨5⟩) w' ∧
        w'.graph.node ⟨5⟩ = .ok (.comparison .ne ⟨0⟩ ⟨1⟩) ∧
        (Graph.invertedSample .eq).KeepsWorth firstUnordered ⟨4⟩ w'.graph ⟨5⟩ := by
  have hroot := Graph.invertedSample_unfolds .eq
  have hclear : ∀ id, (Graph.invertedSample .eq).Reaches ⟨4⟩ id →
      ¬ (Graph.invertedSample .eq).Confuses firstUnordered id := by
    refine (Graph.lacks_isConfused_iff hroot).mpr ?_
    simp [Term.Lacks, Term.subterms, Term.isConfused, RelOp.isEquality]
  have hsound : (Graph.invertedSample .eq).Sound ⟨4⟩ := Graph.exists_unfolds_iff.mp ⟨_, hroot⟩
  obtain ⟨-, hkeeps⟩ := simplify_reads_floats firstUnordered (.ofGraph (.invertedSample .eq)) ⟨4⟩
    hsound rfl (Graph.invertedSample_floats .eq)
  exact ⟨hsound, Graph.invertedSample_floats .eq, hclear, _, rfl, rfl,
    hkeeps hclear .standard ⟨5⟩ _ rfl⟩

/-- Unordered values are not respected in general.  Where `a` is unordered, `cmpl(a, b) lt 0` holds,
    and the comparison `a lt b` that a run makes of it does not; and `(a lt b) eq 0` holds, and the
    comparison `a ge b` does not. -/
theorem simplify_misreads_unordered :
    (Graph.compareSample.Sound ⟨4⟩ ∧
      (∀ id, Graph.compareSample.Reaches ⟨4⟩ id → ¬ Graph.compareSample.Shows Node.isForeign id) ∧
      Graph.compareSample.Worth firstUnordered ⟨4⟩ (.ordered 1) ∧
      ∃ w', simplify .standard ⟨4⟩ (.ofGraph .compareSample) = .ok (.ok ⟨5⟩) w' ∧
        w'.graph.Worth firstUnordered ⟨5⟩ (.ordered 0)) ∧
    ((Graph.invertedSample .lt).Sound ⟨4⟩ ∧
      (∀ id, (Graph.invertedSample .lt).Reaches ⟨4⟩ id →
        ¬ (Graph.invertedSample .lt).Shows Node.isForeign id) ∧
      (Graph.invertedSample .lt).Worth firstUnordered ⟨4⟩ (.ordered 1) ∧
      ∃ w', simplify .standard ⟨4⟩ (.ofGraph (.invertedSample .lt)) = .ok (.ok ⟨5⟩) w' ∧
        w'.graph.Worth firstUnordered ⟨5⟩ (.ordered 0)) := by
  constructor
  · refine ⟨Graph.exists_unfolds_iff.mp ⟨_, Graph.compareSample_unfolds⟩,
      Graph.compareSample_floats, ⟨_, Graph.compareSample_unfolds, by decide⟩, _, rfl, ?_⟩
    exact ⟨.comparison .lt (.leaf (.arg 0) .double) (.leaf (.arg 1) .double) .boolean,
      .stored rfl (.comparison (.stored rfl .leaf) (.stored rfl .leaf)), by decide⟩
  · refine ⟨Graph.exists_unfolds_iff.mp ⟨_, Graph.invertedSample_unfolds .lt⟩,
      Graph.invertedSample_floats .lt, ⟨_, Graph.invertedSample_unfolds .lt, by decide⟩, _, rfl, ?_⟩
    exact ⟨.comparison .ge (.leaf (.arg 0) .double) (.leaf (.arg 1) .double) .boolean,
      .stored rfl (.comparison (.stored rfl .leaf) (.stored rfl .leaf)), by decide⟩

end ValueGraph
