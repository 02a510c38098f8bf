/-
  ValueGraph.Proofs.Term.Operands

  A term seen through its operands.  The six kinds of inner terms differ in
  their labels only, so what holds of a term because it holds of its operands is
  stated once for all kinds: induction (`induct`), replacing every operand
  (`mapOperands`), the terms inside a term (`subterms_eq`), their number
  (`size_eq`), and the longest way down (`height_eq`).
-/
import Mathlib.Algebra.BigOperators.Group.List.Basic
import Mathlib.Algebra.GroupWithZero.Nat
import ValueGraph.Term.Basic

namespace ValueGraph.Term

/-- The terms right below a term, from left to right. -/
def operands : Term → List Term
  | leaf _ _ | unresolved _ => []
  | comparison _ left right _ | arithmetic _ left right _ => [left, right]
  | negation operand _ => [operand]
  | virtualCall _ receiver args _ => receiver :: args
  | staticCall _ args _ => args

/-- The term with the same label and type over other operands. -/
def mapOperands (f : Term → Term) : Term → Term
  | leaf value ty => leaf value ty
  | comparison op left right ty => comparison op (f left) (f right) ty
  | arithmetic op left right ty => arithmetic op (f left) (f right) ty
  | negation operand ty => negation (f operand) ty
  | virtualCall sig receiver args ty => virtualCall sig (f receiver) (args.map f) ty
  | staticCall sig args ty => staticCall sig (args.map f) ty
  | unresolved id => unresolved id

/-- The static type of a term; an identifier without a node has none. -/
def ty : Term → Ty
  | leaf _ ty | comparison _ _ _ ty | arithmetic _ _ _ ty | negation _ ty
  | virtualCall _ _ _ ty | staticCall _ _ ty => ty
  | unresolved _ => .void

@[simp] theorem operands_mapOperands (f : Term → Term) (t : Term) :
    (t.mapOperands f).operands = t.operands.map f := by
  cases t <;> rfl

@[simp] theorem ty_mapOperands (f : Term → Term) (t : Term) : (t.mapOperands f).ty = t.ty := by
  cases t <;> rfl

/-- A term is a function of its operands. -/
theorem mapOperands_congr {f f' : Term → Term} {t : Term}
    (h : ∀ s ∈ t.operands, f s = f' s) : t.mapOperands f = t.mapOperands f' := by
  cases t with
  | leaf | unresolved => rfl
  | comparison op left right ty | arithmetic op left right ty =>
      simp only [mapOperands]
      rw [h left (by simp [operands]), h right (by simp [operands])]
  | negation operand ty =>
      simp only [mapOperands]
      rw [h operand (by simp [operands])]
  | virtualCall sig receiver args ty =>
      have hargs : args.map f = args.map f' :=
        List.map_congr_left fun s hs => h s (List.mem_cons_of_mem _ hs)
      simp only [mapOperands, h receiver (by simp [operands]), hargs]
  | staticCall sig args ty =>
      have hargs : args.map f = args.map f' := List.map_congr_left h
      simp only [mapOperands, hargs]

theorem mapOperands_id (t : Term) : t.mapOperands id = t := by
  cases t <;> simp [mapOperands]

/-- Induction from the operands of a term to the term. -/
@[elab_as_elim]
theorem induct {motive : Term → Prop}
    (node : ∀ t : Term, (∀ s ∈ t.operands, motive s) → motive t) (t : Term) : motive t := by
  refine @Term.rec motive (fun args => ∀ s ∈ args, motive s)
    ?leaf ?comparison ?arithmetic ?negation ?virtualCall ?staticCall ?unresolved ?nil ?cons t
  case leaf => exact fun value ty => node _ (by simp [operands])
  case comparison => exact fun op left right ty hl hr => node _ (by simp [operands, hl, hr])
  case arithmetic => exact fun op left right ty hl hr => node _ (by simp [operands, hl, hr])
  case negation => exact fun operand ty h => node _ (by simp [operands, h])
  case virtualCall =>
    intro sig receiver args ty hr hargs
    refine node _ fun s hs => ?_
    rcases List.mem_cons.mp hs with rfl | hs
    · exact hr
    · exact hargs s hs
  case staticCall => exact fun sig args ty hargs => node _ hargs
  case unresolved => exact fun id => node _ (by simp [operands])
  case nil => simp
  case cons =>
    intro first rest hfirst hrest s hs
    rcases List.mem_cons.mp hs with rfl | hs
    · exact hfirst
    · exact hrest s hs

/-! ## The terms inside a term -/

mutual

/-- A term and all terms below it, each before its operands and those from left to right. -/
def subterms : Term → List Term
  | t@(leaf _ _) | t@(unresolved _) => [t]
  | t@(comparison _ left right _) | t@(arithmetic _ left right _) =>
    t :: (left.subterms ++ right.subterms)
  | t@(negation operand _) => t :: operand.subterms
  | t@(virtualCall _ receiver args _) => t :: (receiver.subterms ++ subtermsOfAll args)
  | t@(staticCall _ args _) => t :: subtermsOfAll args

/-- The terms of a list and all terms below them. -/
def subtermsOfAll : List Term → List Term
  | [] => []
  | first :: rest => first.subterms ++ subtermsOfAll rest

end

/-- The number of nodes of a term. -/
def size (t : Term) : Nat := t.subterms.length

theorem subtermsOfAll_eq (ts : List Term) : subtermsOfAll ts = ts.flatMap subterms := by
  induction ts with
  | nil => rfl
  | cons first rest ih => rw [subtermsOfAll, ih, List.flatMap_cons]

theorem subterms_eq (t : Term) : t.subterms = t :: t.operands.flatMap subterms := by
  cases t <;> simp [subterms, operands, subtermsOfAll_eq]

theorem mem_subterms_self (t : Term) : t ∈ t.subterms := by
  rw [subterms_eq]
  exact List.mem_cons_self ..

/-- What is inside a term is the term itself or inside one of its operands. -/
theorem mem_subterms_iff {s t : Term} :
    s ∈ t.subterms ↔ s = t ∨ ∃ o ∈ t.operands, s ∈ o.subterms := by
  rw [subterms_eq, List.mem_cons, List.mem_flatMap]

theorem mem_subterms_of_operand {s o t : Term} (ho : o ∈ t.operands) (hs : s ∈ o.subterms) :
    s ∈ t.subterms :=
  mem_subterms_iff.mpr (Or.inr ⟨o, ho, hs⟩)

theorem mem_subterms_trans {r s t : Term} (hr : r ∈ s.subterms) (hs : s ∈ t.subterms) :
    r ∈ t.subterms := by
  induction t using induct with
  | node t ih =>
      rcases mem_subterms_iff.mp hs with rfl | ⟨o, ho, hs⟩
      · exact hr
      · exact mem_subterms_of_operand ho (ih o ho hs)

/-- Something holds of all terms inside a term if it holds of the term and inside its operands. -/
theorem forall_mem_subterms_iff {p : Term → Prop} {t : Term} :
    (∀ s ∈ t.subterms, p s) ↔ p t ∧ ∀ o ∈ t.operands, ∀ s ∈ o.subterms, p s := by
  constructor
  · intro h
    refine ⟨h t (mem_subterms_self t), fun o ho s hs => ?_⟩
    exact h s (mem_subterms_of_operand ho hs)
  · rintro ⟨htop, hoperands⟩ s hs
    rcases mem_subterms_iff.mp hs with rfl | ⟨o, ho, hs⟩
    · exact htop
    · exact hoperands o ho s hs

theorem size_eq (t : Term) : t.size = (t.operands.map size).sum + 1 := by
  rw [size, subterms_eq, List.length_cons, List.length_flatMap]
  rfl

theorem size_pos (t : Term) : 0 < t.size := by
  rw [size_eq]
  exact Nat.succ_pos _

/-! ## The longest way down -/

mutual

/-- The number of nodes on the longest way from the top of a term to a leaf. -/
def height : Term → Nat
  | leaf _ _ | unresolved _ => 1
  | comparison _ left right _ | arithmetic _ left right _ => max left.height right.height + 1
  | negation operand _ => operand.height + 1
  | virtualCall _ receiver args _ => max receiver.height (heightOfAll args) + 1
  | staticCall _ args _ => heightOfAll args + 1

/-- The largest height in a list of terms. -/
def heightOfAll : List Term → Nat
  | [] => 0
  | first :: rest => max first.height (heightOfAll rest)

end

theorem height_eq (t : Term) : t.height = heightOfAll t.operands + 1 := by
  cases t <;> simp [height, operands, heightOfAll]

theorem height_le_heightOfAll {s : Term} {ts : List Term} (hs : s ∈ ts) :
    s.height ≤ heightOfAll ts := by
  induction ts with
  | nil => cases hs
  | cons first rest ih =>
      rw [heightOfAll]
      rcases List.mem_cons.mp hs with rfl | hs
      · exact Nat.le_max_left ..
      · exact Nat.le_trans (ih hs) (Nat.le_max_right ..)

theorem height_lt_of_mem_operands {s t : Term} (hs : s ∈ t.operands) : s.height < t.height := by
  rw [height_eq t]
  exact Nat.lt_succ_of_le (height_le_heightOfAll hs)

/-- The largest height in a list is that of one of its terms, unless the list is empty. -/
theorem exists_of_lt_heightOfAll {k : Nat} {ts : List Term} (hk : k < heightOfAll ts) :
    ∃ s ∈ ts, k < s.height := by
  induction ts with
  | nil => cases hk
  | cons first rest ih =>
      rw [heightOfAll] at hk
      by_cases hfirst : k < first.height
      · exact ⟨first, List.mem_cons_self .., hfirst⟩
      · obtain ⟨s, hs, hks⟩ := ih (by omega)
        exact ⟨s, List.mem_cons_of_mem _ hs, hks⟩

/-- Every height up to that of a term is the height of a term inside it. -/
theorem exists_subterm_of_lt_height {k : Nat} {t : Term} (hk : k < t.height) :
    ∃ s ∈ t.subterms, s.height = k + 1 := by
  induction t using induct with
  | node t ih =>
      rcases Nat.lt_or_eq_of_le hk with hlt | heq
      · rw [height_eq] at hlt
        obtain ⟨o, ho, hko⟩ := exists_of_lt_heightOfAll (Nat.lt_of_succ_lt_succ hlt)
        obtain ⟨s, hs, hks⟩ := ih o ho hko
        exact ⟨s, mem_subterms_of_operand ho hs, hks⟩
      · exact ⟨t, mem_subterms_self t, heq.symm⟩

end ValueGraph.Term
