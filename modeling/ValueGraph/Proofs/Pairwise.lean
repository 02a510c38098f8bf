/-
  ValueGraph.Proofs.Pairwise

  Lists whose members are related one to one, in order: how such a relation is
  weakened, when it fixes the second list, and what it says of single members.
-/
import Mathlib.Data.List.Forall2

namespace ValueGraph

/-- Two lists stay pairwise related if the relation is weakened at the members of the second. -/
theorem forall₂_imp_mem {α β : Type} {R S : α → β → Prop} {as : List α} {bs : List β}
    (h : List.Forall₂ R as bs) (himp : ∀ b ∈ bs, ∀ a, R a b → S a b) :
    List.Forall₂ S as bs := by
  induction h with
  | nil => exact .nil
  | @cons a b as bs hab _ ih =>
      refine .cons (himp b (List.mem_cons_self ..) a hab) (ih fun b' hb' => ?_)
      exact himp b' (List.mem_cons_of_mem _ hb')

/-- A list has at most one pairwise related list if that is so for the members of the latter. -/
theorem forall₂_unique {α β : Type} {R : α → β → Prop} {as : List α} {bs cs : List β}
    (hbs : List.Forall₂ R as bs) (hcs : List.Forall₂ R as cs)
    (hunique : ∀ b ∈ bs, ∀ a c, R a b → R a c → b = c) : bs = cs := by
  induction hbs generalizing cs with
  | nil => cases hcs; rfl
  | @cons a b as bs hab _ ih =>
      cases hcs with
      | @cons _ c _ cs hac hcs =>
          have hrest := ih hcs fun b' hb' => hunique b' (List.mem_cons_of_mem _ hb')
          rw [hunique b (List.mem_cons_self ..) a c hab hac, hrest]

/-- Each member of the second list is related to a member of the first. -/
theorem exists_of_mem_forall₂ {α β : Type} {R : α → β → Prop} {as : List α} {bs : List β}
    (h : List.Forall₂ R as bs) {b : β} (hb : b ∈ bs) : ∃ a ∈ as, R a b := by
  induction h with
  | nil => cases hb
  | @cons a b' as bs hab _ ih =>
      rcases List.mem_cons.mp hb with rfl | hb
      · exact ⟨a, List.mem_cons_self .., hab⟩
      · obtain ⟨a', ha', hR⟩ := ih hb
        exact ⟨a', List.mem_cons_of_mem _ ha', hR⟩

/-- A list whose members are all related to something has a pairwise related list. -/
theorem exists_forall₂ {α β : Type} {R : α → β → Prop} {as : List α}
    (h : ∀ a ∈ as, ∃ b, R a b) : ∃ bs, List.Forall₂ R as bs := by
  induction as with
  | nil => exact ⟨[], .nil⟩
  | cons a as ih =>
      obtain ⟨b, hab⟩ := h a (List.mem_cons_self ..)
      obtain ⟨bs, hbs⟩ := ih fun a' ha' => h a' (List.mem_cons_of_mem _ ha')
      exact ⟨b :: bs, .cons hab hbs⟩

end ValueGraph
