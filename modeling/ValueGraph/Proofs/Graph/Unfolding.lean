/-
  ValueGraph.Proofs.Graph.Unfolding

  The term that a node stands for, as a relation: `g.Unfolds id t` reads `t` off
  the stored nodes below `id`, however much they share.

    * A term is the label of its node over what the operands unfold to
      (`spells_iff`).
    * A node unfolds to at most one term (`Unfolds.unique`), and keeps it while
      the graph grows (`Unfolds.mono`).
    * The nodes that unfold are exactly the sound ones (`exists_unfolds_iff`).
    * What a node reaches are the terms inside its term (`Unfolds.of_reaches`,
      `Unfolds.exists_reaches`), so no term is higher than its graph is large
      (`Unfolds.height_le`).
-/
import Mathlib.Data.Fintype.Card
import ValueGraph.Graph.Extends
import ValueGraph.Graph.Unfold
import ValueGraph.Proofs.Graph.Below
import ValueGraph.Proofs.Pairwise
import ValueGraph.Proofs.Term.Operands

namespace ValueGraph.Graph

mutual

/-- The stored node `id` stands for a term. -/
inductive Unfolds (g : Graph) : NodeId → Term → Prop
  | stored {id : NodeId} {node : Node} {t : Term} :
      g.node id = .ok node → g.Spells node t → g.Unfolds id t

/-- A node, stored or not, stands for a term over what its operands unfold to. -/
inductive Spells (g : Graph) : Node → Term → Prop
  | leaf {value : Leaf} {ty : Ty} : g.Spells ⟨.leaf value, ty⟩ (.leaf value ty)
  | comparison {op : RelOp} {left right : NodeId} {l r : Term} {ty : Ty} :
      g.Unfolds left l → g.Unfolds right r →
      g.Spells ⟨.comparison op left right, ty⟩ (.comparison op l r ty)
  | arithmetic {op : ArithOp} {left right : NodeId} {l r : Term} {ty : Ty} :
      g.Unfolds left l → g.Unfolds right r →
      g.Spells ⟨.arithmetic op left right, ty⟩ (.arithmetic op l r ty)
  | negation {operand : NodeId} {x : Term} {ty : Ty} :
      g.Unfolds operand x → g.Spells ⟨.negation operand, ty⟩ (.negation x ty)
  | virtualCall {sig : Signature} {receiver : NodeId} {span : Span} {ids : List NodeId}
      {base : Term} {args : List Term} {ty : Ty} :
      g.Unfolds receiver base → g.args span = .ok ids → List.Forall₂ g.Unfolds ids args →
      g.Spells ⟨.virtualCall sig receiver span, ty⟩ (.virtualCall sig base args ty)
  | staticCall {sig : Signature} {span : Span} {ids : List NodeId} {args : List Term} {ty : Ty} :
      g.args span = .ok ids → List.Forall₂ g.Unfolds ids args →
      g.Spells ⟨.staticCall sig span, ty⟩ (.staticCall sig args ty)

end

/-! ## Operands -/

/-- A span that can be read has as many identifiers as it says. -/
theorem length_of_args {g : Graph} {span : Span} {ids : List NodeId} (h : g.args span = .ok ids) :
    ids.length = span.size := by
  rw [args] at h
  split at h
  case isTrue hempty =>
    cases h
    rw [Span.size, eq_of_beq hempty]
    rfl
  case isFalse =>
    split at h
    case isFalse => cases h
    case isTrue hinside =>
      cases h
      rw [Array.length_toList, Array.size_extract, Nat.min_eq_left hinside, Span.stop,
        Nat.add_sub_cancel_left]

theorem length_lt_of_args {g : Graph} {span : Span} {ids : List NodeId}
    (h : g.args span = .ok ids) : ids.length < UInt16.size := by
  rw [length_of_args h]
  exact span.length.toNat_lt

/-- The operands and arguments of a node of the given kind. -/
def operandIds (g : Graph) : Kind → Except Fault (List NodeId)
  | .leaf _ => .ok []
  | .comparison _ left right | .arithmetic _ left right => .ok [left, right]
  | .negation operand => .ok [operand]
  | .virtualCall _ receiver span => (receiver :: ·) <$> g.args span
  | .staticCall _ span => g.args span

theorem children_of_node {g : Graph} {id : NodeId} {node : Node} (hread : g.node id = .ok node) :
    g.children id = g.operandIds node.kind := by
  show (g.node id >>= _) = _
  rw [hread]
  cases node with
  | mk kind ty => cases kind <;> rfl

theorem exists_node_of_children {g : Graph} {id : NodeId} {ids : List NodeId}
    (h : g.children id = .ok ids) :
    ∃ node, g.node id = .ok node ∧ g.operandIds node.kind = .ok ids := by
  cases hread : g.node id with
  | ok node => exact ⟨node, rfl, by rw [← children_of_node hread, h]⟩
  | error fault =>
      have : g.children id = .error fault := by
        show (g.node id >>= _) = _
        rw [hread]; rfl
      rw [this] at h
      cases h

theorem operandIds_virtualCall {g : Graph} {sig : Signature} {receiver : NodeId} {span : Span}
    {ids : List NodeId} (h : g.operandIds (.virtualCall sig receiver span) = .ok ids) :
    ∃ args, g.args span = .ok args ∧ receiver :: args = ids := by
  rw [operandIds] at h
  cases hspan : g.args span with
  | ok args => rw [hspan] at h; exact ⟨args, rfl, Except.ok.inj h⟩
  | error fault => rw [hspan] at h; cases h

/-- What a kind names does not change while the graph grows. -/
theorem operandIds_mono {g h : Graph} (hgrown : Extends g h) {kind : Kind} {ids : List NodeId}
    (hids : g.operandIds kind = .ok ids) : h.operandIds kind = .ok ids := by
  cases kind with
  | leaf | comparison | arithmetic | negation => exact hids
  | virtualCall sig receiver span =>
      obtain ⟨args, hargs, rfl⟩ := operandIds_virtualCall hids
      rw [operandIds, hgrown.args_eq_ok hargs]
      rfl
  | staticCall sig span => exact hgrown.args_eq_ok hids

theorem children_mono {g h : Graph} (hgrown : Extends g h) {id : NodeId} {ids : List NodeId}
    (hids : g.children id = .ok ids) : h.children id = .ok ids := by
  obtain ⟨node, hread, hoperands⟩ := exists_node_of_children hids
  rw [children_of_node (hgrown.node_eq_ok hread)]
  exact operandIds_mono hgrown hoperands

/-! ## Labels -/

/-- A term with the label and the type of a node, over operands of its own. -/
inductive Labels : Node → Term → Prop
  | leaf {value : Leaf} {ty : Ty} : Labels ⟨.leaf value, ty⟩ (.leaf value ty)
  | comparison {op : RelOp} {left right : NodeId} {l r : Term} {ty : Ty} :
      Labels ⟨.comparison op left right, ty⟩ (.comparison op l r ty)
  | arithmetic {op : ArithOp} {left right : NodeId} {l r : Term} {ty : Ty} :
      Labels ⟨.arithmetic op left right, ty⟩ (.arithmetic op l r ty)
  | negation {operand : NodeId} {x : Term} {ty : Ty} :
      Labels ⟨.negation operand, ty⟩ (.negation x ty)
  | virtualCall {sig : Signature} {receiver : NodeId} {span : Span} {base : Term}
      {args : List Term} {ty : Ty} :
      Labels ⟨.virtualCall sig receiver span, ty⟩ (.virtualCall sig base args ty)
  | staticCall {sig : Signature} {span : Span} {args : List Term} {ty : Ty} :
      Labels ⟨.staticCall sig span, ty⟩ (.staticCall sig args ty)

/-- A term is its label over its operands. -/
theorem Labels.unique {node : Node} {t t' : Term} (h : Labels node t) (h' : Labels node t')
    (hoperands : t.operands = t'.operands) : t = t' := by
  cases h with
  | leaf =>
      cases h'
      rfl
  | comparison | arithmetic =>
      cases h'
      obtain ⟨rfl, hrest⟩ := List.cons.inj hoperands
      rw [List.singleton_inj.mp hrest]
  | negation =>
      cases h'
      rw [List.singleton_inj.mp hoperands]
  | virtualCall =>
      cases h'
      obtain ⟨rfl, rfl⟩ := List.cons.inj hoperands
      rfl
  | staticCall =>
      cases h'
      exact congrArg (Term.staticCall _ · _) hoperands

/-- For as many terms as a node has operands there is a term with the node's label over them. -/
theorem exists_labels {g : Graph} {node : Node} {ids : List NodeId} {ts : List Term}
    (hids : g.operandIds node.kind = .ok ids) (hlength : ts.length = ids.length) :
    ∃ t, Labels node t ∧ t.operands = ts := by
  obtain ⟨kind, ty⟩ := node
  cases kind with
  | leaf value =>
      cases hids
      rw [List.length_eq_zero_iff.mp hlength]
      exact ⟨.leaf value ty, .leaf, rfl⟩
  | comparison op left right =>
      cases hids
      obtain ⟨l, r, rfl⟩ := List.length_eq_two.mp hlength
      exact ⟨.comparison op l r ty, .comparison, rfl⟩
  | arithmetic op left right =>
      cases hids
      obtain ⟨l, r, rfl⟩ := List.length_eq_two.mp hlength
      exact ⟨.arithmetic op l r ty, .arithmetic, rfl⟩
  | negation operand =>
      cases hids
      obtain ⟨x, rfl⟩ := List.length_eq_one_iff.mp hlength
      exact ⟨.negation x ty, .negation, rfl⟩
  | virtualCall sig receiver span =>
      obtain ⟨args, -, rfl⟩ := operandIds_virtualCall hids
      cases ts with
      | nil => cases hlength
      | cons base rest => exact ⟨.virtualCall sig base rest ty, .virtualCall, rfl⟩
  | staticCall sig span => exact ⟨.staticCall sig ts ty, .staticCall, rfl⟩

/-- A node stands for the terms that have its label, over what its operands unfold to. -/
theorem spells_iff {g : Graph} {node : Node} {t : Term} :
    g.Spells node t ↔ Labels node t ∧
      ∃ ids, g.operandIds node.kind = .ok ids ∧ List.Forall₂ g.Unfolds ids t.operands := by
  constructor
  · intro h
    cases h with
    | leaf => exact ⟨.leaf, [], rfl, .nil⟩
    | comparison hl hr => exact ⟨.comparison, _, rfl, .cons hl (.cons hr .nil)⟩
    | arithmetic hl hr => exact ⟨.arithmetic, _, rfl, .cons hl (.cons hr .nil)⟩
    | negation hx => exact ⟨.negation, _, rfl, .cons hx .nil⟩
    | virtualCall hbase hargs hids =>
        refine ⟨.virtualCall, _, ?_, .cons hbase hids⟩
        rw [operandIds, hargs]
        rfl
    | staticCall hargs hids => exact ⟨.staticCall, _, hargs, hids⟩
  · rintro ⟨hlabels, ids, hids, hall⟩
    cases hlabels with
    | leaf => exact .leaf
    | comparison =>
        cases hids
        cases hall with | cons hl hall =>
        cases hall with | cons hr _ =>
        exact .comparison hl hr
    | arithmetic =>
        cases hids
        cases hall with | cons hl hall =>
        cases hall with | cons hr _ =>
        exact .arithmetic hl hr
    | negation =>
        cases hids
        cases hall with | cons hx _ =>
        exact .negation hx
    | virtualCall =>
        obtain ⟨args, hargs, rfl⟩ := operandIds_virtualCall hids
        cases hall with | cons hbase hrest =>
        exact .virtualCall hbase hargs hrest
    | staticCall => exact .staticCall hids hall

theorem Spells.operandIds {g : Graph} {node : Node} {t : Term} (h : g.Spells node t) :
    ∃ ids, g.operandIds node.kind = .ok ids ∧ List.Forall₂ g.Unfolds ids t.operands :=
  (spells_iff.mp h).2

theorem exists_spells {g : Graph} {node : Node} {ids : List NodeId}
    (hids : g.operandIds node.kind = .ok ids) (h : ∀ id ∈ ids, ∃ t, g.Unfolds id t) :
    ∃ t, g.Spells node t := by
  obtain ⟨ts, hall⟩ := exists_forall₂ h
  obtain ⟨t, hlabels, rfl⟩ := exists_labels hids hall.length_eq.symm
  exact ⟨t, spells_iff.mpr ⟨hlabels, ids, hids, hall⟩⟩

/-! ## Growth and uniqueness -/

/-- Terms do not change while a graph grows. -/
theorem Unfolds.mono {g h : Graph} (hgrown : Extends g h) {id : NodeId} {t : Term}
    (hid : g.Unfolds id t) : h.Unfolds id t := by
  induction t using Term.induct generalizing id with
  | node t ih =>
      obtain ⟨hread, hspells⟩ := hid
      obtain ⟨hlabels, ids, hids, hall⟩ := spells_iff.mp hspells
      refine .stored (hgrown.node_eq_ok hread) (spells_iff.mpr ?_)
      exact ⟨hlabels, ids, operandIds_mono hgrown hids, forall₂_imp_mem hall fun s hs _ => ih s hs⟩

theorem forall₂_unfolds_mono {g h : Graph} (hgrown : Extends g h) {ids : List NodeId}
    {ts : List Term} (hids : List.Forall₂ g.Unfolds ids ts) : List.Forall₂ h.Unfolds ids ts :=
  hids.imp fun _ _ => Unfolds.mono hgrown

theorem Spells.mono {g h : Graph} (hgrown : Extends g h) {node : Node} {t : Term}
    (hspells : g.Spells node t) : h.Spells node t := by
  obtain ⟨hlabels, ids, hids, hall⟩ := spells_iff.mp hspells
  exact spells_iff.mpr
    ⟨hlabels, ids, operandIds_mono hgrown hids, forall₂_unfolds_mono hgrown hall⟩

/-- A node stands for at most one term. -/
theorem Unfolds.unique {g : Graph} {id : NodeId} {t t' : Term} (hid : g.Unfolds id t)
    (hid' : g.Unfolds id t') : t = t' := by
  induction t using Term.induct generalizing id t' with
  | node t ih =>
      obtain ⟨hread, hspells⟩ := hid
      obtain ⟨hread', hspells'⟩ := hid'
      cases hread.symm.trans hread'
      obtain ⟨hlabels, ids, hids, hall⟩ := spells_iff.mp hspells
      obtain ⟨hlabels', ids', hids', hall'⟩ := spells_iff.mp hspells'
      cases hids.symm.trans hids'
      exact hlabels.unique hlabels' (forall₂_unique hall hall' fun s hs _ _ => ih s hs)

/-! ## Children -/

theorem Unfolds.exists_children {g : Graph} {id : NodeId} {t : Term} (hid : g.Unfolds id t) :
    ∃ ids, g.children id = .ok ids ∧ List.Forall₂ g.Unfolds ids t.operands := by
  obtain ⟨hread, hspells⟩ := hid
  obtain ⟨ids, hids, hall⟩ := hspells.operandIds
  exact ⟨ids, by rw [children_of_node hread, hids], hall⟩

theorem Unfolds.of_isOperand {g : Graph} {parent child : NodeId} {t : Term}
    (hparent : g.Unfolds parent t) (h : g.IsOperand parent child) :
    ∃ s ∈ t.operands, g.Unfolds child s := by
  obtain ⟨ids, hids, hchild⟩ := h
  obtain ⟨ids', hids', hall⟩ := hparent.exists_children
  cases hids.symm.trans hids'
  exact exists_of_mem_forall₂ hall.flip hchild

theorem Unfolds.exists_isOperand {g : Graph} {parent : NodeId} {s t : Term}
    (hparent : g.Unfolds parent t) (hs : s ∈ t.operands) :
    ∃ child, g.IsOperand parent child ∧ g.Unfolds child s := by
  obtain ⟨ids, hids, hall⟩ := hparent.exists_children
  obtain ⟨child, hchild, hunfolds⟩ := exists_of_mem_forall₂ hall hs
  exact ⟨child, ⟨ids, hids, hchild⟩, hunfolds⟩

/-! ## What a node reaches -/

/-- What a node reaches stands for a term inside the node's term. -/
theorem Unfolds.of_reaches {g : Graph} {root id : NodeId} {t : Term} (hroot : g.Unfolds root t)
    (hid : g.Reaches root id) : ∃ s ∈ t.subterms, g.Unfolds id s := by
  induction t using Term.induct generalizing root with
  | node t ih =>
      rcases reaches_iff.mp hid with rfl | ⟨child, hchild, hreach⟩
      · exact ⟨t, Term.mem_subterms_self t, hroot⟩
      · obtain ⟨o, ho, hunfolds⟩ := hroot.of_isOperand hchild
        obtain ⟨s, hs, hid⟩ := ih o ho hunfolds hreach
        exact ⟨s, Term.mem_subterms_of_operand ho hs, hid⟩

/-- Every term inside a node's term is what some node that it reaches stands for. -/
theorem Unfolds.exists_reaches {g : Graph} {root : NodeId} {s t : Term}
    (hroot : g.Unfolds root t) (hs : s ∈ t.subterms) :
    ∃ id, g.Reaches root id ∧ g.Unfolds id s := by
  induction t using Term.induct generalizing root with
  | node t ih =>
      rcases Term.mem_subterms_iff.mp hs with rfl | ⟨o, ho, hs⟩
      · exact ⟨root, g.reaches_self root, hroot⟩
      · obtain ⟨child, hchild, hunfolds⟩ := hroot.exists_isOperand ho
        obtain ⟨id, hreach, hid⟩ := ih o ho hunfolds hs
        exact ⟨id, hchild.reaches.trans hreach, hid⟩

theorem Unfolds.height_lt_of_transGen {g : Graph} {high low : NodeId} {t : Term}
    (hhigh : g.Unfolds high t) (h : Relation.TransGen g.IsOperand high low) :
    ∃ s, g.Unfolds low s ∧ s.height < t.height := by
  induction h with
  | single hchild =>
      obtain ⟨s, hs, hunfolds⟩ := hhigh.of_isOperand hchild
      exact ⟨s, hunfolds, Term.height_lt_of_mem_operands hs⟩
  | tail _ hchild ih =>
      obtain ⟨s, hmiddle, hlt⟩ := ih
      obtain ⟨o, ho, hunfolds⟩ := hmiddle.of_isOperand hchild
      exact ⟨o, hunfolds, (Term.height_lt_of_mem_operands ho).trans hlt⟩

/-- A node stands for a term exactly if the graph below it is sound. -/
theorem exists_unfolds_iff {g : Graph} {root : NodeId} :
    (∃ t, g.Unfolds root t) ↔ g.Sound root := by
  constructor
  · rintro ⟨t, hroot⟩
    constructor
    · intro id hid
      obtain ⟨s, -, hunfolds⟩ := hroot.of_reaches hid
      obtain ⟨ids, hids, -⟩ := hunfolds.exists_children
      exact ⟨ids, hids⟩
    · intro id hid hcycle
      obtain ⟨s, -, hunfolds⟩ := hroot.of_reaches hid
      -- A way from a node back to itself would lead to a lower term, but the term is the same.
      obtain ⟨s', hunfolds', hlt⟩ := hunfolds.height_lt_of_transGen hcycle
      rw [hunfolds.unique hunfolds'] at hlt
      exact absurd hlt (Nat.lt_irrefl _)
  · intro hsound
    induction hsound.acc with
    | intro root _ ih =>
        obtain ⟨ids, hids⟩ := hsound.readable root (g.reaches_self root)
        obtain ⟨node, hread, hids'⟩ := exists_node_of_children hids
        have hall : ∀ id ∈ ids, ∃ t, g.Unfolds id t := fun id hid =>
          ih id ⟨ids, hids, hid⟩ (hsound.of_reaches (IsOperand.reaches ⟨ids, hids, hid⟩))
        obtain ⟨t, hspells⟩ := exists_spells hids' hall
        exact ⟨t, .stored hread hspells⟩

/-- A sound root stays one while the graph grows. -/
theorem Sound.mono {g h : Graph} (hgrown : Extends g h) {root : NodeId} (hsound : g.Sound root) :
    h.Sound root := by
  obtain ⟨t, hroot⟩ := exists_unfolds_iff.mpr hsound
  exact exists_unfolds_iff.mp ⟨t, hroot.mono hgrown⟩

theorem node_eq_ok_iff {g : Graph} {id : NodeId} {node : Node} :
    g.node id = .ok node ↔ g.nodes[id.index]? = some node := by
  rw [Graph.node]
  split
  case h_1 stored hfound => rw [hfound, Except.ok.injEq, Option.some.injEq]
  case h_2 hmissing => simp [hmissing]

theorem index_lt_of_node {g : Graph} {id : NodeId} {node : Node} (hread : g.node id = .ok node) :
    id.index < g.size :=
  (Array.getElem?_eq_some_iff.mp (node_eq_ok_iff.mp hread)).1

theorem Unfolds.index_lt {g : Graph} {id : NodeId} {t : Term} (hid : g.Unfolds id t) :
    id.index < g.size := by
  obtain ⟨hread, -⟩ := hid
  exact index_lt_of_node hread

/-- No term is higher than its graph is large: the heights from one up to that of the term belong
    to different nodes. -/
theorem Unfolds.height_le {g : Graph} {root : NodeId} {t : Term} (hroot : g.Unfolds root t) :
    t.height ≤ g.size := by
  have hnode : ∀ k : Fin t.height, ∃ id s, g.Unfolds id s ∧ s.height = k + 1 := by
    intro k
    obtain ⟨s, hs, hheight⟩ := Term.exists_subterm_of_lt_height k.isLt
    obtain ⟨id, -, hid⟩ := hroot.exists_reaches hs
    exact ⟨id, s, hid, hheight⟩
  choose id s hid hheight using hnode
  let place : Fin t.height → Fin g.size := fun k => ⟨(id k).index, (hid k).index_lt⟩
  have hinj : Function.Injective place := by
    intro k k' hk
    have hsame : id k = id k' := NodeId.index_inj.mp (Fin.mk.inj hk)
    have hterm : s k = s k' := (hid k).unique (hsame ▸ hid k')
    have hk := hheight k
    rw [hterm, hheight k'] at hk
    exact Fin.ext (by omega)
  simpa using Fintype.card_le_of_injective place hinj

/-! ## Unfolding as a computation -/

/-- In a graph with a node to spare, every stored node has a valid identifier. -/
theorem contains_of_index_lt {g : Graph} {id : NodeId} (hroom : g.size < UInt32.size)
    (hid : id.index < g.size) : g.contains id = true := by
  have hvalid : id ≠ NodeId.invalid := by
    rintro rfl
    have hlast : NodeId.invalid.index + 1 = UInt32.size := rfl
    omega
  simp [contains, NodeId.isValid, hvalid, hid]

theorem mapM_eq_ok {f : NodeId → Except Fault Term} {ids : List NodeId} {ts : List Term}
    (h : List.Forall₂ (fun id t => f id = .ok t) ids ts) : ids.mapM f = .ok ts := by
  induction h with
  | nil => rfl
  | cons hfirst _ ih => rw [List.mapM_cons, hfirst, ih]; rfl

/-- Unfolding goes from the operands of a node to the node. -/
theorem unfoldWithin_succ {g : Graph} {depth : Nat} {id : NodeId} {node : Node}
    {ids : List NodeId} {t : Term} (hid : g.contains id = true) (hread : g.node id = .ok node)
    (hids : g.operandIds node.kind = .ok ids) (hlabels : Labels node t)
    (hoperands : List.Forall₂ (fun child s => g.unfoldWithin depth child = .ok s) ids t.operands) :
    g.unfoldWithin (depth + 1) id = .ok t := by
  rw [unfoldWithin, if_pos hid, hread]
  cases hlabels with
  | leaf => rfl
  | comparison | arithmetic =>
      cases hids
      cases hoperands with | cons hleft hoperands =>
      cases hoperands with | cons hright hoperands =>
      simp only [bind, Except.bind, hleft, hright]
      rfl
  | negation =>
      cases hids
      cases hoperands with | cons hoperand _ =>
      simp only [bind, Except.bind, hoperand]
      rfl
  | virtualCall =>
      obtain ⟨args, hargs, rfl⟩ := operandIds_virtualCall hids
      cases hoperands with | cons hreceiver hrest =>
      simp only [bind, Except.bind, hreceiver, hargs, mapM_eq_ok hrest]
      rfl
  | staticCall =>
      have hargs : g.args _ = .ok ids := hids
      simp only [bind, Except.bind, hargs, mapM_eq_ok hoperands]
      rfl

theorem Unfolds.unfoldWithin_eq {g : Graph} {depth : Nat} {id : NodeId} {t : Term}
    (hid : g.Unfolds id t) (hin : ∀ low, g.Reaches id low → g.contains low = true)
    (hdepth : t.height ≤ depth) : g.unfoldWithin depth id = .ok t := by
  induction t using Term.induct generalizing depth id with
  | node t ih =>
      cases depth with
      | zero => rw [Term.height_eq] at hdepth; omega
      | succ depth =>
          obtain ⟨hread, hspells⟩ := hid
          obtain ⟨hlabels, ids, hids, hall⟩ := spells_iff.mp hspells
          refine unfoldWithin_succ (hin id (g.reaches_self id)) hread hids hlabels ?_
          have hall := (List.forall₂_and_left ids _).mpr ⟨fun child hchild => hchild, hall⟩
          refine forall₂_imp_mem hall fun s hs child ⟨hchild, hunfolds⟩ => ?_
          have hoperand : g.IsOperand id child := ⟨ids, (children_of_node hread).trans hids, hchild⟩
          have hlower := Term.height_lt_of_mem_operands hs
          refine ih s hs hunfolds (fun low hlow => ?_) (by omega)
          exact hin low (hoperand.reaches.trans hlow)

/-- Where everything that a node reaches is contained in the graph, the term that the node stands for
    is what unfolding it gives. -/
theorem Unfolds.unfold_eq_of_contains {g : Graph} {id : NodeId} {t : Term} (hid : g.Unfolds id t)
    (hin : ∀ low, g.Reaches id low → g.contains low = true) : g.unfold id = .ok t :=
  hid.unfoldWithin_eq hin (Nat.le_succ_of_le hid.height_le)

/-- In a graph with a node to spare, what a node that stands for a term reaches is contained. -/
theorem Unfolds.contains_of_reaches {g : Graph} (hroom : g.size < UInt32.size) {id low : NodeId}
    {t : Term} (hid : g.Unfolds id t) (hlow : g.Reaches id low) : g.contains low = true := by
  obtain ⟨s, -, hs⟩ := hid.of_reaches hlow
  exact contains_of_index_lt hroom hs.index_lt

/-- In a graph with a node to spare, the term that a node stands for is what unfolding it gives. -/
theorem Unfolds.unfold_eq {g : Graph} (hroom : g.size < UInt32.size) {id : NodeId} {t : Term}
    (hid : g.Unfolds id t) : g.unfold id = .ok t :=
  hid.unfold_eq_of_contains fun _ => hid.contains_of_reaches hroom

/-! ## Small graphs -/

/-- The comparison `(a ne 0) eq 0` of a boolean argument `a`; both comparisons share the zero. -/
def sample : Graph where
  nodes := #[⟨.leaf (.arg 0), .boolean⟩, .int 0, .comparison .ne ⟨0⟩ ⟨1⟩, .comparison .eq ⟨2⟩ ⟨1⟩]
  entries := #[]

theorem sample_unfolds : sample.Unfolds ⟨3⟩
    (.comparison .eq
      (.comparison .ne (.leaf (.arg 0) .boolean) (.leaf (.int 0) .int) .boolean)
      (.leaf (.int 0) .int) .boolean) := by
  have ha : sample.Unfolds ⟨0⟩ (.leaf (.arg 0) .boolean) := .stored rfl .leaf
  have hzero : sample.Unfolds ⟨1⟩ (.leaf (.int 0) .int) := .stored rfl .leaf
  exact .stored rfl (.comparison (.stored rfl (.comparison ha hzero)) hzero)

theorem sample_sound : sample.Sound ⟨3⟩ := exists_unfolds_iff.mp ⟨_, sample_unfolds⟩

/-- The same comparison, stored in another order, with a zero for each of the two comparisons, and
    with a node that neither of them reaches. -/
def unsharedSample : Graph where
  nodes := #[.int 0, ⟨.leaf .null, .string⟩, .int 0, ⟨.leaf (.arg 0), .boolean⟩,
    .comparison .ne ⟨3⟩ ⟨2⟩, .comparison .eq ⟨4⟩ ⟨0⟩]
  entries := #[]

theorem unsharedSample_unfolds : unsharedSample.Unfolds ⟨5⟩
    (.comparison .eq
      (.comparison .ne (.leaf (.arg 0) .boolean) (.leaf (.int 0) .int) .boolean)
      (.leaf (.int 0) .int) .boolean) := by
  have ha : unsharedSample.Unfolds ⟨3⟩ (.leaf (.arg 0) .boolean) := .stored rfl .leaf
  have hinner : unsharedSample.Unfolds ⟨2⟩ (.leaf (.int 0) .int) := .stored rfl .leaf
  have houter : unsharedSample.Unfolds ⟨0⟩ (.leaf (.int 0) .int) := .stored rfl .leaf
  exact .stored rfl (.comparison (.stored rfl (.comparison ha hinner)) houter)

/-- The comparison `0 eq a.equals(b)` of two string arguments. -/
def equalsSample : Graph where
  nodes := #[⟨.leaf (.arg 0), .string⟩, ⟨.leaf (.arg 1), .string⟩,
    ⟨.virtualCall .stringEquals ⟨0⟩ ⟨0, 1⟩, .boolean⟩, .int 0, .comparison .eq ⟨3⟩ ⟨2⟩]
  entries := #[⟨1⟩]

theorem equalsSample_unfolds : equalsSample.Unfolds ⟨4⟩
    (.comparison .eq (.leaf (.int 0) .int)
      (.virtualCall .stringEquals (.leaf (.arg 0) .string) [.leaf (.arg 1) .string] .boolean)
      .boolean) := by
  have ha : equalsSample.Unfolds ⟨0⟩ (.leaf (.arg 0) .string) := .stored rfl .leaf
  have hb : equalsSample.Unfolds ⟨1⟩ (.leaf (.arg 1) .string) := .stored rfl .leaf
  have hzero : equalsSample.Unfolds ⟨3⟩ (.leaf (.int 0) .int) := .stored rfl .leaf
  have hcall : equalsSample.Unfolds ⟨2⟩
      (.virtualCall .stringEquals (.leaf (.arg 0) .string) [.leaf (.arg 1) .string] .boolean) :=
    .stored rfl (.virtualCall ha rfl (.cons hb .nil))
  exact .stored rfl (.comparison hzero hcall)

/-- The call `0.equals(0)`, which a pass reads as a comparison of two literals. -/
def literalsSample : Graph where
  nodes := #[.int 0, ⟨.virtualCall .stringEquals ⟨0⟩ ⟨0, 1⟩, .boolean⟩]
  entries := #[⟨0⟩]

theorem literalsSample_unfolds : literalsSample.Unfolds ⟨1⟩
    (.virtualCall .stringEquals (.leaf (.int 0) .int) [.leaf (.int 0) .int] .boolean) := by
  have hzero : literalsSample.Unfolds ⟨0⟩ (.leaf (.int 0) .int) := .stored rfl .leaf
  exact .stored rfl (.virtualCall hzero rfl (.cons hzero .nil))

theorem literalsSample_sound : literalsSample.Sound ⟨1⟩ :=
  exists_unfolds_iff.mp ⟨_, literalsSample_unfolds⟩

end ValueGraph.Graph
