/-
  ValueGraph.Proofs.Simplify.Meaning

  A run keeps the meaning of its root.  What a node is worth is what its term is
  worth (`Graph.Evaluates`).  If every node of the boolean type that the root
  reaches is worth 0 or 1, then the answer of a run is worth in the last graph
  what the root is worth in the first, whatever the settings are
  (`simplify_preserves_value`).
-/
import ValueGraph.Proofs.Graph.Showing
import ValueGraph.Proofs.Simplify.Run
import ValueGraph.Proofs.Term.Meaning

namespace ValueGraph

namespace Graph

/-- What a node is worth. -/
def Evaluates (g : Graph) (e : Evaluation) (methods : MethodTable) (id : NodeId) (value : Int) :
    Prop :=
  ∃ t, g.Unfolds id t ∧ t.value e methods = value

/-- Every node of the boolean type that a root reaches is worth 0 or 1. -/
def Truthful (g : Graph) (e : Evaluation) (methods : MethodTable) (root : NodeId) : Prop :=
  ∀ id node value, g.Reaches root id → g.node id = .ok node → node.ty = .boolean →
    g.Evaluates e methods id value → IsTruthValue value

variable {g : Graph} {e : Evaluation} {methods : MethodTable}

theorem truthful_iff {root : NodeId} {t : Term} (hroot : g.Unfolds root t) :
    g.Truthful e methods root ↔ t.Truthful e methods := by
  constructor
  · intro h s hs hty
    obtain ⟨id, hreach, hread, hspells⟩ := hroot.exists_reaches hs
    exact h id _ _ hreach hread (hspells.ty_eq.trans hty) ⟨s, .stored hread hspells, rfl⟩
  · rintro h id node value hreach hread hty ⟨s', hid', rfl⟩
    obtain ⟨s, hs, hid⟩ := hroot.of_reaches hreach
    cases hid.unique hid'
    obtain ⟨hread', hspells⟩ := hid
    cases hread.symm.trans hread'
    exact h s' hs (hspells.ty_eq.symm.trans hty)

end Graph

/-- A run keeps the meaning of a sound root: if every node of the boolean type that the root
    reaches is worth 0 or 1, then any answer is worth what the root was. -/
theorem simplify_preserves_value (e : Evaluation) (w : Workspace) (root : NodeId)
    (hsound : w.graph.Sound root) (htruthful : w.graph.Truthful e .standard root) :
    ∃ value, w.graph.Evaluates e .standard root value ∧
      ∀ (config : Config) (r : NodeId) (w' : Workspace),
        simplify config root w = .ok (.ok r) w' → w'.graph.Evaluates e .standard r value := by
  obtain ⟨t, hroot⟩ := Graph.exists_unfolds_iff.mpr hsound
  refine ⟨_, ⟨t, hroot, rfl⟩, fun config r w' hrun => ?_⟩
  obtain ⟨-, k, hr, -⟩ := (ends_simplify hroot).of_ok hrun
  have hterm : t.Truthful e config.toRules.methods := (Graph.truthful_iff hroot).mp htruthful
  exact ⟨_, hr, Rules.value_iterate_rewrite hterm k⟩

/-- Everything that the rules know nothing of is worth one. -/
def Evaluation.ones : Evaluation where
  leaf _ _ := 1
  arithmetic _ _ _ _ := 1
  virtualCall _ _ _ _ := 1
  staticCall _ _ _ := 1

/-- If the argument is true, the small graph is false before and after a run. -/
theorem simplify_preserves_value_sample :
    Graph.sample.Sound ⟨3⟩ ∧ Graph.sample.Truthful .ones .standard ⟨3⟩ ∧
      Graph.sample.Evaluates .ones .standard ⟨3⟩ 0 ∧
      ∃ w', simplify ⟨.all, 3, true⟩ ⟨3⟩ (.ofGraph .sample) = .ok (.ok ⟨5⟩) w' ∧
        w'.graph.Evaluates .ones .standard ⟨5⟩ 0 := by
  have htruthful : Graph.sample.Truthful .ones .standard ⟨3⟩ := by
    refine (Graph.truthful_iff Graph.sample_unfolds).mpr ?_
    refine Term.truthful_comparison (Term.truthful_comparison ?_ ?_) ?_
    · exact Term.truthful_iff.mpr ⟨fun _ => Or.inr rfl, nofun⟩
    · exact Term.truthful_int 0
    · exact Term.truthful_int 0
  obtain ⟨value, ⟨t, hroot, rfl⟩, hrun⟩ :=
    simplify_preserves_value .ones (.ofGraph .sample) ⟨3⟩ Graph.sample_sound htruthful
  cases hroot.unique Graph.sample_unfolds
  exact ⟨Graph.sample_sound, htruthful, ⟨_, hroot, rfl⟩, _, rfl, hrun ⟨.all, 3, true⟩ ⟨5⟩ _ rfl⟩

end ValueGraph
