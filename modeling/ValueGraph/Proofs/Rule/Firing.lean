/-
  ValueGraph.Proofs.Rule.Firing

  What a rule can offer for a stored node, read off the graph alone.
  `Graph.Fires` has one constructor for each rule, with everything that the rule
  has looked at, and a rule offers nothing else (`fires_of_nodeRule`).  Unlike the
  agreement with terms it says which identifiers the replacement names: they are
  operands of the node or operands of these (`Fires.exposes`).
-/
import ValueGraph.Proofs.Graph.Unfolding
import ValueGraph.Simplify.Pass

namespace ValueGraph.Graph

/-- What `x op 0` may be replaced by, for the node stored under `x`. -/
inductive AgainstZero (g : Graph) : RelOp → NodeId → Replacement → Prop
  | keep {x : NodeId} {node : Node} :
      g.node x = .ok node → Operand.isTruth ⟨x, node⟩ = true → g.AgainstZero .ne x (.stored x)
  | complement {x left right : NodeId} {op : RelOp} {ty : Ty} :
      g.node x = .ok ⟨.comparison op left right, ty⟩ →
      g.AgainstZero .eq x (.fresh (.comparison op.complement left right))
  | negate {x : NodeId} {node : Node} :
      g.node x = .ok node → node.ty.isBoolean = true →
      g.AgainstZero .eq x (.fresh (.negation x))
  | relate {op : RelOp} {x left right : NodeId} {compare : ArithOp} {ty : Ty} :
      g.node x = .ok ⟨.arithmetic compare left right, ty⟩ → compare.isThreeWay = true →
      g.AgainstZero op x (.fresh (.comparison op left right))

/-- What a node of the given kind may be replaced by, and by which of the chosen rules. -/
inductive Fires (rules : Rules) (g : Graph) : Kind → Firing → Prop
  | fold {op : RelOp} {left right : NodeId} {l r : Int32} {lty rty : Ty} :
      rules.groups.fold = true → op.isEquality = true →
      g.node left = .ok ⟨.leaf (.int l), lty⟩ → g.node right = .ok ⟨.leaf (.int r), rty⟩ →
      Fires rules g (.comparison op left right)
        ⟨.comparison, .fresh (.truth (op.holds l.toInt r.toInt))⟩
  | leftZero {op : RelOp} {z x : NodeId} {zty : Ty} {replacement : Replacement} :
      rules.groups.zero = true → g.node z = .ok ⟨.leaf (.int 0), zty⟩ →
      g.AgainstZero op.converse x replacement →
      Fires rules g (.comparison op z x) ⟨.comparison, replacement⟩
  | swap {op : RelOp} {z x : NodeId} {zty : Ty} {node : Node} :
      rules.groups.zero = true → g.node z = .ok ⟨.leaf (.int 0), zty⟩ →
      g.node x = .ok node → node.isIntZero = false →
      Fires rules g (.comparison op z x) ⟨.comparison, .fresh (.comparison op.converse x z)⟩
  | rightZero {op : RelOp} {x z : NodeId} {zty : Ty} {replacement : Replacement} :
      rules.groups.zero = true → g.node z = .ok ⟨.leaf (.int 0), zty⟩ →
      g.AgainstZero op x replacement →
      Fires rules g (.comparison op x z) ⟨.comparison, replacement⟩
  | method {sig : Signature} {op : RelOp} {receiver first : NodeId} {rest : List NodeId}
      {span : Span} :
      rules.groups.methods = true → rules.methods.find? sig = some op →
      g.args span = .ok (first :: rest) →
      Fires rules g (.virtualCall sig receiver span)
        ⟨.method, .fresh (.comparison op receiver first)⟩

variable {g : Graph} {rules : Rules}

/-! ## Reading what a rule has read -/

theorem bind_eq_ok {α β : Type} {x : Except Fault α} {f : α → Except Fault β} {b : β}
    (h : x >>= f = .ok b) : ∃ a, x = .ok a ∧ f a = .ok b := by
  cases x with
  | ok a => exact ⟨a, rfl, h⟩
  | error fault => cases h

theorem map_eq_ok {α β : Type} {x : Except Fault α} {f : α → β} {b : β}
    (h : f <$> x = .ok b) : ∃ a, x = .ok a ∧ f a = b := by
  cases x with
  | ok a => exact ⟨a, rfl, Except.ok.inj h⟩
  | error fault => cases h

theorem operand_eq_ok {id : NodeId} {x : Operand} (h : g.operand id = .ok x) :
    ∃ node, g.node id = .ok node ∧ x = ⟨id, node⟩ := by
  obtain ⟨node, hread, rfl⟩ := map_eq_ok h
  exact ⟨node, hread, rfl⟩

theorem eq_leaf_of_node_intValue? {node : Node} {value : Int32}
    (h : node.intValue? = some value) : ∃ ty, node = ⟨.leaf (.int value), ty⟩ := by
  obtain ⟨kind, ty⟩ := node
  unfold Node.intValue? at h
  split at h
  case h_2 => cases h
  case h_1 v hkind =>
    cases h
    exact ⟨ty, by rw [← hkind]⟩

theorem eq_leaf_of_node_isIntZero {node : Node} (h : node.isIntZero = true) :
    ∃ ty, node = ⟨.leaf (.int 0), ty⟩ :=
  eq_leaf_of_node_intValue? (eq_of_beq h)

/-! ## Comparisons with zero -/

section AgainstZero

variable {x : NodeId} {node : Node} {replacement : Replacement}

theorem againstZero_of_kept? (hx : g.node x = .ok node)
    (h : Operand.kept? ⟨x, node⟩ = some replacement) : g.AgainstZero .ne x replacement := by
  unfold Operand.kept? at h
  split at h
  case isFalse => cases h
  case isTrue htruth =>
    cases h
    exact .keep hx htruth

theorem againstZero_of_opposite? (hx : g.node x = .ok node)
    (h : Operand.opposite? ⟨x, node⟩ = some replacement) : g.AgainstZero .eq x replacement := by
  obtain ⟨kind, ty⟩ := node
  unfold Operand.opposite? at h
  split at h
  case isFalse => cases h
  case isTrue htruth =>
    cases h
    -- A comparison has a complement; anything else is a truth value by its type.
    cases kind with
    | comparison op left right => exact .complement hx
    | leaf | arithmetic | negation | virtualCall | staticCall => exact .negate hx htruth

theorem againstZero_of_related? {op : RelOp} (hx : g.node x = .ok node)
    (h : Operand.related? op ⟨x, node⟩ = some replacement) : g.AgainstZero op x replacement := by
  obtain ⟨kind, ty⟩ := node
  cases kind with
  | arithmetic compare left right =>
      simp only [Operand.related?] at h
      split at h
      case isFalse => cases h
      case isTrue hway =>
        cases h
        exact .relate hx hway
  | leaf | comparison | negation | virtualCall | staticCall => cases h

theorem againstZero_of_againstZero? {op : RelOp} (hx : g.node x = .ok node)
    (h : Operand.againstZero? op ⟨x, node⟩ = some replacement) :
    g.AgainstZero op x replacement := by
  cases op with
  | ne =>
      rcases (Option.orElse_eq_some _ _ _).mp h with hkept | ⟨-, hrelated⟩
      · exact againstZero_of_kept? hx hkept
      · exact againstZero_of_related? hx hrelated
  | eq =>
      rcases (Option.orElse_eq_some _ _ _).mp h with hopposite | ⟨-, hrelated⟩
      · exact againstZero_of_opposite? hx hopposite
      · exact againstZero_of_related? hx hrelated
  | lt | le | gt | ge => exact againstZero_of_related? hx h

end AgainstZero

/-! ## The rules -/

section Comparison

variable {op : RelOp} {left right : NodeId} {lnode rnode : Node} {replacement : Replacement}

theorem fires_of_foldLiterals? (hgroup : rules.groups.fold = true)
    (hleft : g.node left = .ok lnode) (hright : g.node right = .ok rnode)
    (h : foldLiterals? op ⟨left, lnode⟩ ⟨right, rnode⟩ = some replacement) :
    g.Fires rules (.comparison op left right) ⟨.comparison, replacement⟩ := by
  unfold foldLiterals? at h
  split at h
  case h_2 => cases h
  case h_1 l r hop hl hr =>
    cases h
    obtain ⟨lty, rfl⟩ := eq_leaf_of_node_intValue? hl
    obtain ⟨rty, rfl⟩ := eq_leaf_of_node_intValue? hr
    exact .fold hgroup hop hleft hright

theorem fires_of_dropZero? (hgroup : rules.groups.zero = true)
    (hleft : g.node left = .ok lnode) (hright : g.node right = .ok rnode)
    (h : dropZero? op ⟨left, lnode⟩ ⟨right, rnode⟩ = some replacement) :
    g.Fires rules (.comparison op left right) ⟨.comparison, replacement⟩ := by
  unfold dropZero? at h
  split at h
  case h_1 hlzero hrzero =>
    obtain ⟨lty, rfl⟩ := eq_leaf_of_node_isIntZero hlzero
    obtain ⟨rty, rfl⟩ := eq_leaf_of_node_isIntZero hrzero
    rcases (Option.orElse_eq_some _ _ _).mp h with hknown | ⟨-, hknown⟩
    · exact .leftZero hgroup hleft (againstZero_of_againstZero? hright hknown)
    · exact .rightZero hgroup hright (againstZero_of_againstZero? hleft hknown)
  case h_2 hlzero hrzero =>
    obtain ⟨lty, rfl⟩ := eq_leaf_of_node_isIntZero hlzero
    rcases (Option.orElse_eq_some _ _ _).mp h with hknown | ⟨-, hswap⟩
    · exact .leftZero hgroup hleft (againstZero_of_againstZero? hright hknown)
    · cases hswap
      exact .swap hgroup hleft hright hrzero
  case h_3 hlzero hrzero =>
    obtain ⟨rty, rfl⟩ := eq_leaf_of_node_isIntZero hrzero
    exact .rightZero hgroup hright (againstZero_of_againstZero? hleft h)
  case h_4 => cases h

theorem fires_of_comparisonRule
    (h : g.comparisonRule rules.groups op left right = .ok (some replacement)) :
    g.Fires rules (.comparison op left right) ⟨.comparison, replacement⟩ := by
  rw [comparisonRule] at h
  split at h
  case isFalse => cases h
  case isTrue =>
    obtain ⟨l, hl, h⟩ := bind_eq_ok h
    obtain ⟨r, hr, h⟩ := bind_eq_ok h
    obtain ⟨lnode, hleft, rfl⟩ := operand_eq_ok hl
    obtain ⟨rnode, hright, rfl⟩ := operand_eq_ok hr
    have hrule := Except.ok.inj h
    unfold compareRule? at hrule
    rcases (Option.orElse_eq_some _ _ _).mp hrule with hfold | ⟨-, hzero⟩
    · split at hfold
      case isFalse => cases hfold
      case isTrue hgroup => exact fires_of_foldLiterals? hgroup hleft hright hfold
    · split at hzero
      case isFalse => cases hzero
      case isTrue hgroup => exact fires_of_dropZero? hgroup hleft hright hzero

end Comparison

theorem fires_of_methodRule {sig : Signature} {receiver : NodeId} {span : Span}
    {replacement : Replacement} (hgroup : rules.groups.methods = true)
    (h : g.methodRule rules.methods sig receiver span = .ok (some replacement)) :
    g.Fires rules (.virtualCall sig receiver span) ⟨.method, replacement⟩ := by
  unfold methodRule at h
  split at h
  case h_1 => cases h
  case h_2 op hfind =>
    obtain ⟨ids, hargs, h⟩ := bind_eq_ok h
    obtain ⟨first, hfirst, rfl⟩ := Option.map_eq_some_iff.mp (Except.ok.inj h)
    cases ids with
    | nil => cases hfirst
    | cons head rest =>
        cases hfirst
        exact .method hgroup hfind hargs

/-- The rule for a node offers one of the things that `Fires` lists, or nothing. -/
theorem fires_of_nodeRule {id : NodeId} {node : Node} {firing : Firing}
    (hread : g.node id = .ok node)
    (h : g.nodeRule rules.methods rules.groups id = .ok (some firing)) :
    g.Fires rules node.kind firing := by
  obtain ⟨kind, ty⟩ := node
  cases kind with
  | leaf value =>
      rw [nodeRule, hread] at h
      cases value <;> cases h
  | arithmetic | negation | staticCall =>
      rw [nodeRule, hread] at h
      cases h
  | comparison op left right =>
      rw [nodeRule_comparison hread] at h
      obtain ⟨answer, hanswer, hsome⟩ := map_eq_ok h
      obtain ⟨replacement, rfl, rfl⟩ := Option.map_eq_some_iff.mp hsome
      exact fires_of_comparisonRule hanswer
  | virtualCall sig receiver span =>
      rw [nodeRule_virtualCall hread] at h
      split at h
      case isFalse => cases h
      case isTrue hgroup =>
        obtain ⟨answer, hanswer, hsome⟩ := map_eq_ok h
        obtain ⟨replacement, rfl, rfl⟩ := Option.map_eq_some_iff.mp hsome
        exact fires_of_methodRule hgroup hanswer

/-! ## What a replacement names -/

/-- A replacement for a node over the operands `ids`: one of these, or a new node over these and
    over the operands of these. -/
inductive Exposes (g : Graph) (ids : List NodeId) : Replacement → Prop
  | stored {x : NodeId} : x ∈ ids → g.Exposes ids (.stored x)
  | fresh {node : Node} {news : List NodeId} :
      g.operandIds node.kind = .ok news →
      (∀ child ∈ news, child ∈ ids ∨ ∃ x ∈ ids, g.IsOperand x child) →
      g.Exposes ids (.fresh node)

theorem isOperand_of_node {x child : NodeId} {node : Node} {ids : List NodeId}
    (hread : g.node x = .ok node) (hids : g.operandIds node.kind = .ok ids)
    (hchild : child ∈ ids) : g.IsOperand x child :=
  ⟨ids, (children_of_node hread).trans hids, hchild⟩

theorem AgainstZero.exposes {op : RelOp} {x : NodeId} {replacement : Replacement}
    (h : g.AgainstZero op x replacement) {ids : List NodeId} (hx : x ∈ ids) :
    g.Exposes ids replacement := by
  cases h with
  | keep => exact .stored hx
  | negate =>
      refine .fresh rfl fun child hchild => ?_
      cases List.mem_singleton.mp hchild
      exact Or.inl hx
  | complement hread | relate hread _ =>
      exact .fresh rfl fun child hchild => Or.inr ⟨x, hx, isOperand_of_node hread rfl hchild⟩

/-- A replacement names nothing but operands of the node and operands of these. -/
theorem Fires.exposes {kind : Kind} {firing : Firing} (h : g.Fires rules kind firing)
    {ids : List NodeId} (hids : g.operandIds kind = .ok ids) :
    g.Exposes ids firing.replacement := by
  cases h with
  | fold => cases hids; exact .fresh rfl nofun
  | leftZero _ _ hknown => cases hids; exact hknown.exposes (by simp)
  | rightZero _ _ hknown => cases hids; exact hknown.exposes (by simp)
  | swap =>
      cases hids
      refine .fresh rfl fun child hchild => Or.inl ?_
      rw [List.mem_cons, List.mem_singleton] at hchild ⊢
      exact hchild.symm
  | method _ _ hargs =>
      obtain ⟨args, hargs', rfl⟩ := operandIds_virtualCall hids
      cases hargs.symm.trans hargs'
      refine .fresh rfl fun child hchild => Or.inl ?_
      rw [List.mem_cons, List.mem_singleton] at hchild
      rcases hchild with rfl | rfl
      · exact List.mem_cons_self ..
      · exact List.mem_cons_of_mem _ (List.mem_cons_self ..)

end ValueGraph.Graph
