/-
  ValueGraph.Proofs.Rule.Reducible

  The stored nodes that a rule applies to, told by what is stored under their
  operands, and how they relate to terms: a node is reducible exactly if its term
  has a step (`reducible_iff`), and the term of a root is canonical exactly if
  the root reaches no reducible node (`canonical_iff_irreducible`).
-/
import ValueGraph.Proofs.Rule.Agreement
import ValueGraph.Proofs.Term.Canonical

namespace ValueGraph

namespace Node

/-- Whether the node is an integer literal. -/
def isInt (node : Node) : Bool := node.intValue?.isSome

/-- Whether the node is a comparison or of the boolean type. -/
def isTruth (node : Node) : Bool := node.complement?.isSome || node.ty.isBoolean

/-- Whether the node is a three-way compare. -/
def isThreeWay (node : Node) : Bool :=
  match node.kind with
  | .arithmetic op _ _ => op.isThreeWay
  | _ => false

end Node

namespace Graph

/-- The node stored under an identifier has a property. -/
def Shows (g : Graph) (p : Node → Bool) (id : NodeId) : Prop :=
  ∃ node, g.node id = .ok node ∧ p node = true

/-- A node that one of the chosen rules applies to. -/
inductive Redex (rules : Rules) (g : Graph) : Node → Prop
  | fold {op : RelOp} {left right : NodeId} {ty : Ty} :
      rules.groups.fold = true → op.isEquality = true →
      g.Shows Node.isInt left → g.Shows Node.isInt right →
      Redex rules g ⟨.comparison op left right, ty⟩
  | leftZero {op : RelOp} {left right : NodeId} {ty : Ty} :
      rules.groups.zero = true →
      g.Shows Node.isIntZero left → ¬ g.Shows Node.isIntZero right →
      Redex rules g ⟨.comparison op left right, ty⟩
  | threeWay {op : RelOp} {left right : NodeId} {ty : Ty} :
      rules.groups.zero = true →
      g.Shows Node.isIntZero right → g.Shows Node.isThreeWay left →
      Redex rules g ⟨.comparison op left right, ty⟩
  | truth {op : RelOp} {left right : NodeId} {ty : Ty} :
      rules.groups.zero = true → op.isEquality = true →
      (g.Shows Node.isIntZero left ∧ g.Shows Node.isTruth right ∨
        g.Shows Node.isIntZero right ∧ g.Shows Node.isTruth left) →
      Redex rules g ⟨.comparison op left right, ty⟩
  | method {sig : Signature} {receiver : NodeId} {span : Span} {ids : List NodeId} {ty : Ty} :
      rules.groups.methods = true → (rules.methods.find? sig).isSome = true →
      g.args span = .ok ids → ids ≠ [] →
      Redex rules g ⟨.virtualCall sig receiver span, ty⟩

/-- The node stored under an identifier is one that a rule applies to. -/
def Reducible (rules : Rules) (g : Graph) (id : NodeId) : Prop :=
  ∃ node, g.node id = .ok node ∧ g.Redex rules node

variable {rules : Rules} {g : Graph} {id left right : NodeId} {t l r : Term}

theorem Unfolds.shows_iff {p : Node → Bool} {q : Term → Bool}
    (hpq : ∀ node t, g.Spells node t → p node = q t) (hid : g.Unfolds id t) :
    g.Shows p id ↔ q t = true := by
  obtain ⟨hread, hspells⟩ := hid
  rw [← hpq _ _ hspells]
  constructor
  · rintro ⟨node, hnode, hp⟩
    cases hread.symm.trans hnode
    exact hp
  · exact fun hp => ⟨_, hread, hp⟩

theorem Unfolds.shows_isInt (hid : g.Unfolds id t) :
    g.Shows Node.isInt id ↔ t.intValue?.isSome = true :=
  hid.shows_iff (q := fun t => t.intValue?.isSome) fun _ _ hspells => by
    rw [Node.isInt, hspells.intValue?_eq]

theorem Unfolds.shows_isIntZero (hid : g.Unfolds id t) :
    g.Shows Node.isIntZero id ↔ t.isIntZero = true :=
  hid.shows_iff fun _ _ hspells => hspells.isIntZero_eq

theorem Unfolds.shows_isTruth (hid : g.Unfolds id t) :
    g.Shows Node.isTruth id ↔ t.isTruth = true := by
  refine hid.shows_iff fun node t hspells => ?_
  show Operand.isTruth ⟨id, node⟩ = t.isTruth
  exact hspells.isTruth_eq

theorem Unfolds.shows_isThreeWay (hid : g.Unfolds id t) :
    g.Shows Node.isThreeWay id ↔ t.isThreeWay = true :=
  hid.shows_iff fun _ _ hspells => by cases hspells <;> rfl

theorem redex_comparison_iff (hl : g.Unfolds left l) (hr : g.Unfolds right r) (op : RelOp)
    (ty : Ty) :
    g.Redex rules ⟨.comparison op left right, ty⟩ ↔
      (rules.step? (.comparison op l r ty)).isSome = true := by
  rw [Rules.step?_comparison_isSome]
  simp only [Bool.or_eq_true, Bool.and_eq_true, Bool.not_eq_true', ← hl.shows_isInt,
    ← hr.shows_isInt, ← hl.shows_isIntZero, ← hr.shows_isTruth, ← hl.shows_isTruth,
    ← hl.shows_isThreeWay, ← Bool.not_eq_true, ← hr.shows_isIntZero]
  constructor
  · rintro (⟨hfold, hop, hleft, hright⟩ | ⟨hzero, hleft, hright⟩ | ⟨hzero, hright, hleft⟩ |
      ⟨hzero, hop, ⟨hleft, hright⟩ | ⟨hright, hleft⟩⟩)
    · exact Or.inl ⟨hfold, ⟨hop, hleft⟩, hright⟩
    · exact Or.inr ⟨hzero, Or.inl ⟨hleft, Or.inl hright⟩⟩
    · exact Or.inr ⟨hzero, Or.inr ⟨hright, Or.inr hleft⟩⟩
    · exact Or.inr ⟨hzero, Or.inl ⟨hleft, Or.inr ⟨hop, hright⟩⟩⟩
    · exact Or.inr ⟨hzero, Or.inr ⟨hright, Or.inl ⟨hop, hleft⟩⟩⟩
  · rintro (⟨hfold, ⟨hop, hleft⟩, hright⟩ | ⟨hzero, ⟨hleft, hright | ⟨hop, hright⟩⟩ |
      ⟨hright, ⟨hop, hleft⟩ | hleft⟩⟩)
    · exact .fold hfold hop hleft hright
    · exact .leftZero hzero hleft hright
    · exact .truth hzero hop (Or.inl ⟨hleft, hright⟩)
    · exact .truth hzero hop (Or.inr ⟨hright, hleft⟩)
    · exact .threeWay hzero hright hleft

theorem redex_virtualCall_iff {span : Span} {ids : List NodeId} {args : List Term}
    (hargs : g.args span = .ok ids) (hids : List.Forall₂ g.Unfolds ids args) (sig : Signature)
    (receiver : NodeId) (base : Term) (ty : Ty) :
    g.Redex rules ⟨.virtualCall sig receiver span, ty⟩ ↔
      (rules.step? (.virtualCall sig base args ty)).isSome = true := by
  have hempty : ids ≠ [] ↔ (!args.isEmpty) = true := by
    cases hids with
    | nil => simp
    | cons => simp
  rw [Rules.step?_virtualCall_isSome, Bool.and_eq_true, Bool.and_eq_true, ← hempty]
  constructor
  · intro hredex
    cases hredex with
    | method hmethods hfind hargs' hne =>
        cases hargs.symm.trans hargs'
        exact ⟨⟨hmethods, hfind⟩, hne⟩
  · rintro ⟨⟨hmethods, hfind⟩, hne⟩
    exact .method hmethods hfind hargs hne

/-- A rule applies to a node exactly if there is a step from the term that the node stands for. -/
theorem reducible_iff (hid : g.Unfolds id t) :
    g.Reducible rules id ↔ (rules.step? t).isSome = true := by
  cases hid with
  | @stored _ node _ hread hspells =>
      have hnode : g.Reducible rules id ↔ g.Redex rules node := by
        constructor
        · rintro ⟨other, hother, hredex⟩
          cases hread.symm.trans hother
          exact hredex
        · exact fun hredex => ⟨node, hread, hredex⟩
      rw [hnode]
      cases hspells with
      | comparison hl hr => exact redex_comparison_iff hl hr _ _
      | virtualCall _ hargs hids => exact redex_virtualCall_iff hargs hids _ _ _ _
      | leaf | arithmetic | negation | staticCall => exact iff_of_false nofun nofun

/-- The term of a root is canonical exactly if the root reaches no reducible node. -/
theorem canonical_iff_irreducible {root : NodeId} (hroot : g.Unfolds root t) :
    rules.Canonical t ↔ ∀ id, g.Reaches root id → ¬ g.Reducible rules id := by
  constructor
  · intro hcanonical id hreach hreducible
    obtain ⟨s, hs, hid⟩ := hroot.of_reaches hreach
    have hstep := (reducible_iff hid).mp hreducible
    rw [hcanonical s hs] at hstep
    cases hstep
  · intro hirreducible s hs
    obtain ⟨id, hreach, hid⟩ := hroot.exists_reaches hs
    have hstep := mt (reducible_iff hid).mpr (hirreducible id hreach)
    exact Option.not_isSome_iff_eq_none.mp hstep

end Graph

end ValueGraph
