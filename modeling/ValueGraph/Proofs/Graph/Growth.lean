/-
  ValueGraph.Proofs.Graph.Growth

  Steps that only store.

  There are two ways to store something, a node and an argument list, and each
  has one lemma that says all it can do (`push_cases`, `pushArgs_cases`).  A step
  grows a graph if everything that was stored before it is there after it, at
  the same place, however it ends (`Grows`).  Storing grows the graph, reading
  leaves it as it is, and steps that grow it do so one after the other.
-/
import ValueGraph.Graph.Extends
import ValueGraph.Proofs.Stateful
import ValueGraph.Rule.Replacement

namespace ValueGraph

open ValueGraph.Graph (Extends)

namespace Graph

variable {g : Graph}

/-! ## How reading and storing end -/

theorem view_of_ok {α : Type} {read : Graph → Except Fault α} {a : α} (hread : read g = .ok a) :
    view read g = .ok a g := by
  rw [view, hread]

theorem view_of_error {α : Type} {read : Graph → Except Fault α} {fault : Fault}
    (hread : read g = .error fault) : view read g = .error fault g := by
  rw [view, hread]

theorem operand_of_node {id : NodeId} {node : Node} (hread : g.node id = .ok node) :
    g.operand id = .ok ⟨id, node⟩ := by
  rw [operand, hread]
  rfl

theorem operand_of_error {id : NodeId} {fault : Fault} (hread : g.node id = .error fault) :
    g.operand id = .error fault := by
  rw [operand, hread]
  rfl

theorem size_addNode (g : Graph) (node : Node) : (g.addNode node).size = g.size + 1 :=
  Array.size_push node

theorem index_ofNat {n : Nat} (hn : n < UInt32.size) : NodeId.index ⟨.ofNat n⟩ = n :=
  UInt32.toNat_ofNat_of_lt' hn

/-- A node is stored behind all others, unless no identifier is left for it. -/
theorem push_cases (node : Node) (g : Graph) :
    (g.size < UInt32.size ∧ push node g = .ok ⟨.ofNat g.size⟩ (g.addNode node)) ∨
      (UInt32.size ≤ g.size ∧ push node g = .error (.tooManyNodes g.size) g) := by
  by_cases hroom : g.size < UInt32.size
  · refine Or.inl ⟨hroom, ?_⟩
    rw [push, if_pos hroom]
  · refine Or.inr ⟨Nat.le_of_not_lt hroom, ?_⟩
    rw [push, if_neg hroom]

/-- An argument list is stored, and its span answered, if both are within their limits.  A list that
    is too long for a span has been stored when that is found out. -/
theorem pushArgs_cases (ids : List NodeId) (g : Graph) :
    (∃ span, (g.addEntries ids).args span = .ok ids ∧
        pushArgs ids g = .ok span (g.addEntries ids)) ∨
      (UInt16.size ≤ ids.length ∧
        pushArgs ids g = .error (.tooManyArguments ids.length) (g.addEntries ids)) ∨
      (UInt32.size ≤ g.entries.size ∧
        pushArgs ids g = .error (.tooManyEntries g.entries.size) g) := by
  cases ids with
  | nil =>
      -- The empty list takes no room, so it is stored in a full graph as well.
      exact Or.inl ⟨.empty, rfl, rfl⟩
  | cons first rest =>
      by_cases hroom : g.entries.size < UInt32.size
      · by_cases hshort : (first :: rest).length < UInt16.size
        · refine Or.inl ⟨_, args_addEntries hroom hshort, ?_⟩
          simp only [pushArgs, List.isEmpty_cons, Bool.false_eq_true, if_false, if_pos hroom,
            if_pos hshort]
        · refine Or.inr (Or.inl ⟨Nat.le_of_not_lt hshort, ?_⟩)
          simp only [pushArgs, List.isEmpty_cons, Bool.false_eq_true, if_false, if_pos hroom,
            if_neg hshort]
      · refine Or.inr (Or.inr ⟨Nat.le_of_not_lt hroom, ?_⟩)
        simp only [pushArgs, List.isEmpty_cons, Bool.false_eq_true, if_false, if_neg hroom]

end Graph

/-! ## Steps that grow a graph -/

section Grows

variable {σ α β : Type} {graph : σ → Graph}

/-- However a step ends, everything that was stored before it is still stored, at the same place. -/
def Grows (graph : σ → Graph) (x : EStateM Fault σ α) : Prop :=
  ∀ s, Extends (graph s) (graph (endState (x s)))

namespace Grows

theorem of_graph_eq {x : EStateM Fault σ α} (h : ∀ s, graph (endState (x s)) = graph s) :
    Grows graph x := by
  intro s
  rw [h s]
  exact .refl _

theorem pure (a : α) : Grows graph (Pure.pure a : EStateM Fault σ α) := of_graph_eq fun _ => rfl

theorem throw (fault : Fault) : Grows graph (MonadExcept.throw fault : EStateM Fault σ α) :=
  of_graph_eq fun _ => rfl

theorem bind {x : EStateM Fault σ α} {f : α → EStateM Fault σ β} (hx : Grows graph x)
    (hf : ∀ a, Grows graph (f a)) : Grows graph (x >>= f) := by
  intro s
  have hfirst := hx s
  cases hrun : x s with
  | ok a s' =>
      rw [hrun] at hfirst
      rw [bind_of_ok hrun]
      exact hfirst.trans (hf a s')
  | error fault s' =>
      rw [hrun] at hfirst
      rw [bind_of_error hrun]
      exact hfirst

theorem view (read : Graph → Except Fault α) : Grows id (Graph.view read) := by
  refine of_graph_eq fun g => ?_
  cases hread : read g with
  | ok a => rw [Graph.view_of_ok hread]; rfl
  | error fault => rw [Graph.view_of_error hread]; rfl

theorem push (node : Node) : Grows id (Graph.push node) := by
  intro g
  rcases Graph.push_cases node g with ⟨-, hrun⟩ | ⟨-, hrun⟩
  · rw [hrun]
    exact .addNode g node
  · rw [hrun]
    exact .refl g

theorem pushArgs (ids : List NodeId) : Grows id (Graph.pushArgs ids) := by
  intro g
  rcases Graph.pushArgs_cases ids g with ⟨span, -, hrun⟩ | ⟨-, hrun⟩ | ⟨-, hrun⟩
  · rw [hrun]
    exact .addEntries g ids
  · rw [hrun]
    exact .addEntries g ids
  · rw [hrun]
    exact .refl g

theorem place (replacement : Replacement) : Grows id replacement.place := by
  cases replacement with
  | stored target => exact pure target
  | fresh node => exact push node

end Grows

end Grows

end ValueGraph
