/-
  ValueGraph.Proofs.Term.Rewrite

  Rewriting of terms, without graphs, sharing or images: `Rules.rewrite`
  rewrites the operands of a term and then applies at most one rule to the term
  over the results.  A pass over a graph is measured against it.

  `Rules.Fires` says what a rule can do, one constructor for each rule, and
  `fires_of_step?` that a step does nothing else.  What is to hold of every
  step is shown by cases on `Fires`.
-/
import Mathlib.Data.Option.Basic
import ValueGraph.Proofs.Term.Operands
import ValueGraph.Simplify.Pass

namespace ValueGraph

/-! ## The first of two answers -/

theorem orElse_none {α : Type} (a : Option α) : (a <|> none) = a := by
  cases a <;> rfl

theorem isSome_orElse {α : Type} (a b : Option α) :
    (a <|> b).isSome = (a.isSome || b.isSome) := by
  cases a <;> rfl

namespace Term

/-! ## The rules -/

/-- The value of an integer literal, whatever its type. -/
def intValue? : Term → Option Int32
  | leaf (.int value) _ => some value
  | _ => none

/-- Whether the term is the integer literal zero. -/
def isIntZero (t : Term) : Bool := t.intValue? == some 0

/-- The truth value of an equality of two integer literals, as a literal. -/
def foldLiterals? (op : RelOp) (left right : Term) : Option Term :=
  match op.isEquality, left.intValue?, right.intValue? with
  | true, some l, some r => some (.leaf (.int (if op.holds l.toInt r.toInt then 1 else 0)) .int)
  | _, _, _ => none

/-- Whether the term is a truth value: a comparison, or anything of the boolean type. -/
def isTruth : Term → Bool
  | comparison .. => true
  | t => t.ty.isBoolean

/-- The opposite of a truth value: the complement of a comparison, the negation of any other. -/
def opposite : Term → Term
  | comparison op left right _ => comparison op.complement left right .boolean
  | t => negation t .boolean

/-- The relation between the two operands of a three-way compare. -/
def related? (op : RelOp) : Term → Option Term
  | arithmetic compare left right _ =>
    if compare.isThreeWay then some (comparison op left right .boolean) else none
  | _ => none

/-- What `x op 0` says without the zero: `ne` keeps a truth value, `eq` gives its opposite, and any
    other operator or operand is left to the three-way compares. -/
def againstZero? (op : RelOp) (x : Term) : Option Term :=
  if op.isEquality && x.isTruth then
    some (if op = .ne then x else x.opposite)
  else
    x.related? op

/-- A zero on the left is read from the other side.  If nothing is known of the right operand, the
    operands are swapped, unless both are zero. -/
def dropLeftZero? (op : RelOp) (left right : Term) : Option Term :=
  if left.isIntZero then
    right.againstZero? op.converse
      <|> (if right.isIntZero then none else some (comparison op.converse right left .boolean))
  else
    none

/-- A zero on the right is dropped if something is known of the left operand. -/
def dropRightZero? (op : RelOp) (left right : Term) : Option Term :=
  if right.isIntZero then left.againstZero? op else none

end Term

namespace Rules

/-- What one rule makes of a term, if a rule applies to it; the first that does counts. -/
def step? (rules : Rules) : Term → Option Term
  | .virtualCall sig receiver (first :: _) _ =>
    if rules.groups.methods then
      (rules.methods.find? sig).map fun op => .comparison op receiver first .boolean
    else
      none
  | .comparison op left right _ =>
    (if rules.groups.fold then Term.foldLiterals? op left right else none)
      <|> (if rules.groups.zero then
          Term.dropLeftZero? op left right <|> Term.dropRightZero? op left right
        else none)
  | _ => none

/-- A term after at most one rule. -/
def step (rules : Rules) (t : Term) : Term := (rules.step? t).getD t

mutual

/-- Rewrites a term from the leaves up: its operands first, then the term over the results by at
    most one rule. -/
def rewrite (rules : Rules) : Term → Term
  | .leaf value ty => rules.step (.leaf value ty)
  | .comparison op left right ty =>
    rules.step (.comparison op (rules.rewrite left) (rules.rewrite right) ty)
  | .arithmetic op left right ty =>
    rules.step (.arithmetic op (rules.rewrite left) (rules.rewrite right) ty)
  | .negation operand ty => rules.step (.negation (rules.rewrite operand) ty)
  | .virtualCall sig receiver args ty =>
    rules.step (.virtualCall sig (rules.rewrite receiver) (rules.rewriteAll args) ty)
  | .staticCall sig args ty => rules.step (.staticCall sig (rules.rewriteAll args) ty)
  | .unresolved id => rules.step (.unresolved id)

/-- Rewrites every term of a list. -/
def rewriteAll (rules : Rules) : List Term → List Term
  | [] => []
  | first :: rest => rules.rewrite first :: rules.rewriteAll rest

end

theorem rewriteAll_eq (rules : Rules) (ts : List Term) :
    rules.rewriteAll ts = ts.map rules.rewrite := by
  induction ts with
  | nil => rfl
  | cons first rest ih => rw [rewriteAll, ih, List.map_cons]

theorem rewrite_eq (rules : Rules) (t : Term) :
    rules.rewrite t = rules.step (t.mapOperands rules.rewrite) := by
  cases t <;> simp only [rewrite, rewriteAll_eq, Term.mapOperands]

end Rules

/-! ## What a rule can do -/

/-- What `x op 0` may be replaced by. -/
inductive Term.AgainstZero : RelOp → Term → Term → Prop
  | keep {x : Term} : x.isTruth = true → AgainstZero .ne x x
  | oppose {x : Term} : x.isTruth = true → AgainstZero .eq x x.opposite
  | relate {op : RelOp} {compare : ArithOp} {left right : Term} {ty : Ty} :
      compare.isThreeWay = true →
      AgainstZero op (.arithmetic compare left right ty) (.comparison op left right .boolean)

/-- What a term may be replaced by, and by which of the chosen rules. -/
inductive Rules.Fires (rules : Rules) : Term → Term → Prop
  | method {sig : Signature} {op : RelOp} {receiver first : Term} {rest : List Term} {ty : Ty} :
      rules.groups.methods = true → rules.methods.find? sig = some op →
      rules.Fires (.virtualCall sig receiver (first :: rest) ty)
        (.comparison op receiver first .boolean)
  | fold {op : RelOp} {l r : Int32} {lty rty ty : Ty} :
      rules.groups.fold = true → op.isEquality = true →
      rules.Fires (.comparison op (.leaf (.int l) lty) (.leaf (.int r) rty) ty)
        (.leaf (.int (if op.holds l.toInt r.toInt then 1 else 0)) .int)
  | leftZero {op : RelOp} {x y : Term} {zty ty : Ty} :
      rules.groups.zero = true → Term.AgainstZero op.converse x y →
      rules.Fires (.comparison op (.leaf (.int 0) zty) x ty) y
  | swap {op : RelOp} {x : Term} {zty ty : Ty} :
      rules.groups.zero = true → x.isIntZero = false →
      rules.Fires (.comparison op (.leaf (.int 0) zty) x ty)
        (.comparison op.converse x (.leaf (.int 0) zty) .boolean)
  | rightZero {op : RelOp} {x y : Term} {zty ty : Ty} :
      rules.groups.zero = true → Term.AgainstZero op x y →
      rules.Fires (.comparison op x (.leaf (.int 0) zty) ty) y

namespace Term

theorem eq_leaf_of_intValue? {t : Term} {value : Int32} (h : t.intValue? = some value) :
    ∃ ty, t = .leaf (.int value) ty := by
  unfold intValue? at h
  split at h
  · cases h
    exact ⟨_, rfl⟩
  · cases h

theorem eq_leaf_of_isIntZero {t : Term} (h : t.isIntZero = true) :
    ∃ ty, t = .leaf (.int 0) ty :=
  eq_leaf_of_intValue? (eq_of_beq h)

theorem againstZero_of_againstZero? {op : RelOp} {x y : Term} (h : x.againstZero? op = some y) :
    AgainstZero op x y := by
  unfold againstZero? at h
  split at h
  case isTrue htruth =>
    rw [Bool.and_eq_true] at htruth
    cases h
    cases op with
    | eq => exact .oppose htruth.2
    | ne => exact .keep htruth.2
    | lt | le | gt | ge => cases htruth.1
  case isFalse =>
    unfold related? at h
    split at h
    case h_2 => cases h
    case h_1 compare left right ty =>
      split at h
      case isTrue hway => cases h; exact .relate hway
      case isFalse => cases h

end Term

namespace Rules

variable {rules : Rules}

theorem fires_of_foldLiterals? {op : RelOp} {left right t : Term} {ty : Ty}
    (hgroup : rules.groups.fold = true) (h : Term.foldLiterals? op left right = some t) :
    rules.Fires (.comparison op left right ty) t := by
  unfold Term.foldLiterals? at h
  split at h
  case h_2 => cases h
  case h_1 l r hop hl hr =>
    cases h
    obtain ⟨lty, rfl⟩ := Term.eq_leaf_of_intValue? hl
    obtain ⟨rty, rfl⟩ := Term.eq_leaf_of_intValue? hr
    exact .fold hgroup hop

theorem fires_of_dropLeftZero? {op : RelOp} {left right t : Term} {ty : Ty}
    (hgroup : rules.groups.zero = true) (h : Term.dropLeftZero? op left right = some t) :
    rules.Fires (.comparison op left right ty) t := by
  unfold Term.dropLeftZero? at h
  split at h
  case isFalse => cases h
  case isTrue hzero =>
    obtain ⟨zty, rfl⟩ := Term.eq_leaf_of_isIntZero hzero
    rcases (Option.orElse_eq_some _ _ _).mp h with hknown | ⟨-, hswap⟩
    · exact .leftZero hgroup (Term.againstZero_of_againstZero? hknown)
    · split at hswap
      case isTrue => cases hswap
      case isFalse hright =>
        cases hswap
        exact .swap hgroup (by simpa using hright)

theorem fires_of_dropRightZero? {op : RelOp} {left right t : Term} {ty : Ty}
    (hgroup : rules.groups.zero = true) (h : Term.dropRightZero? op left right = some t) :
    rules.Fires (.comparison op left right ty) t := by
  unfold Term.dropRightZero? at h
  split at h
  case isFalse => cases h
  case isTrue hzero =>
    obtain ⟨zty, rfl⟩ := Term.eq_leaf_of_isIntZero hzero
    exact .rightZero hgroup (Term.againstZero_of_againstZero? h)

/-- A step does one of the things that `Fires` lists. -/
theorem fires_of_step? {t t' : Term} (h : rules.step? t = some t') : rules.Fires t t' := by
  unfold step? at h
  split at h
  case h_1 sig receiver first rest ty =>
    split at h
    case isFalse => cases h
    case isTrue hmethods =>
      obtain ⟨op, hop, rfl⟩ := Option.map_eq_some_iff.mp h
      exact .method hmethods hop
  case h_2 op left right ty =>
    rcases (Option.orElse_eq_some _ _ _).mp h with hfold | ⟨-, hzero⟩
    · split at hfold
      case isFalse => cases hfold
      case isTrue hgroup => exact fires_of_foldLiterals? hgroup hfold
    · split at hzero
      case isFalse => cases hzero
      case isTrue hgroup =>
        rcases (Option.orElse_eq_some _ _ _).mp hzero with hleft | ⟨-, hright⟩
        · exact fires_of_dropLeftZero? hgroup hleft
        · exact fires_of_dropRightZero? hgroup hright
  case h_3 => cases h

end Rules

end ValueGraph
