/-
  ValueGraph.Proofs.Simplify.Settled

  When a pass has nothing to do.  A pass keeps its root exactly if the root
  reaches no reducible node, and then it leaves the graph as it was; the answer
  of a run that has to settle reaches no reducible node.
-/
import ValueGraph.Proofs.Rule.Reducible
import ValueGraph.Proofs.Simplify.Run

namespace ValueGraph

variable {rules : Rules} {w : Workspace} {root : NodeId} {t : Term}

namespace Rules

/-- A pass that keeps its root has found its term canonical. -/
theorem canonical_of_pass_eq_root {number : Nat} {w' : Workspace}
    (hroot : w.graph.Unfolds root t) (hrun : rules.pass number root w = .ok root w') :
    rules.Canonical t :=
  ((ends_pass_rewrites hroot number).of_ok hrun).same_iff.mp rfl

end Rules

theorem irreducible_of_simplify {config : Config} {r : NodeId} {w' : Workspace}
    (hroot : w.graph.Unfolds root t) (hmust : config.mustSettle = true)
    (hrun : simplify config root w = .ok (.ok r) w') :
    w'.graph.Sound r ∧ ∀ id, w'.graph.Reaches r id → ¬ w'.graph.Reducible config.toRules id := by
  obtain ⟨-, k, hr, hsettled⟩ := (ends_simplify hroot).of_ok hrun
  exact ⟨Graph.exists_unfolds_iff.mp ⟨_, hr⟩,
    (Graph.canonical_iff_irreducible hr).mp (hsettled hmust)⟩

/-- A pass from a sound root keeps it exactly if the root reaches no reducible node.  In that case
    the pass replaces nothing, and the graph stays as it was.  What a run answers that has to settle
    reaches no reducible node. -/
theorem pass_eq_root_iff_irreducible (rules : Rules) (number : Nat) (w : Workspace) (root : NodeId)
    (hsound : w.graph.Sound root) :
    ((∃ w', rules.pass number root w = .ok root w') ↔
      ∀ id, w.graph.Reaches root id → ¬ w.graph.Reducible rules id) ∧
    ((∀ id, w.graph.Reaches root id → ¬ w.graph.Reducible rules id) →
      ∃ images, rules.pass number root w
        = .ok root ⟨w.graph, images, 0, w.log.push (.passed number 0 0)⟩) ∧
    (∀ (config : Config) (r : NodeId) (w' : Workspace), config.mustSettle = true →
      simplify config root w = .ok (.ok r) w' →
      w'.graph.Sound r ∧
        ∀ id, w'.graph.Reaches r id → ¬ w'.graph.Reducible config.toRules id) := by
  obtain ⟨t, hroot⟩ := Graph.exists_unfolds_iff.mpr hsound
  have hcanonical :
      rules.Canonical t ↔ ∀ id, w.graph.Reaches root id → ¬ w.graph.Reducible rules id :=
    Graph.canonical_iff_irreducible hroot
  refine ⟨⟨?_, ?_⟩, ?_, ?_⟩
  · rintro ⟨w', hrun⟩
    exact hcanonical.mp (Rules.canonical_of_pass_eq_root hroot hrun)
  · intro hirreducible
    obtain ⟨images, hrun⟩ := Rules.pass_of_canonical hroot (hcanonical.mpr hirreducible) number
    exact ⟨_, hrun⟩
  · exact fun hirreducible =>
      Rules.pass_of_canonical hroot (hcanonical.mpr hirreducible) number
  · exact fun config r w' hmust hrun => irreducible_of_simplify hroot hmust hrun

/-- The rules have work in the small graph, and once it is done nothing is reducible. -/
theorem pass_eq_root_iff_irreducible_sample :
    Graph.sample.Sound ⟨3⟩ ∧
    ¬ (∀ id, Graph.sample.Reaches ⟨3⟩ id → ¬ Graph.sample.Reducible ⟨.standard, .all⟩ id) ∧
    ∃ w', simplify ⟨.all, 3, true⟩ ⟨3⟩ (.ofGraph .sample) = .ok (.ok ⟨5⟩) w' ∧
      ∀ id, w'.graph.Reaches ⟨5⟩ id → ¬ w'.graph.Reducible ⟨.standard, .all⟩ id := by
  have h := pass_eq_root_iff_irreducible ⟨.standard, .all⟩ 1 (.ofGraph .sample) ⟨3⟩
    Graph.sample_sound
  have hsettled := h.2.2 ⟨.all, 3, true⟩ ⟨5⟩ _ rfl rfl
  refine ⟨Graph.sample_sound, fun hirreducible => ?_, _, rfl, hsettled.2⟩
  -- The pass answers node 5.
  obtain ⟨w', hrun⟩ := h.1.mpr hirreducible
  cases hrun

end ValueGraph
