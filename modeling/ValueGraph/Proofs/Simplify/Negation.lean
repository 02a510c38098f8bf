/-
  ValueGraph.Proofs.Simplify.Negation

  A run leaves no negated comparison, if none was there in the beginning and no
  call was negated that can be read as a comparison (`simplify_negates_no_comparison`).
  Which nodes are negated is told by the term of the root (`Unfolds.negates_iff`),
  and there the operands of negations are followed through all rewritings.
-/
import ValueGraph.Proofs.Graph.Showing
import ValueGraph.Proofs.Simplify.Run
import ValueGraph.Proofs.Term.Negation

namespace ValueGraph

namespace Graph

/-- The node stored under an identifier is the negation of one that has a property. -/
def Negates (g : Graph) (p : Node → Bool) (id : NodeId) : Prop :=
  ∃ operand ty, g.node id = .ok ⟨.negation operand, ty⟩ ∧ g.Shows p operand

variable {g : Graph} {root id : NodeId} {t : Term} {p : Node → Bool} {q : Term → Bool}

theorem Unfolds.negates_iff (hpq : ∀ node t, g.Spells node t → p node = q t)
    (hid : g.Unfolds id t) : g.Negates p id ↔ t.negates q = true := by
  cases hid with
  | @stored _ node _ hread hspells =>
      cases hspells with
      | @negation operand x ty hx =>
          rw [Term.negates, ← hx.shows_iff hpq]
          constructor
          · rintro ⟨operand', ty', hread', hshown⟩
            cases hread.symm.trans hread'
            exact hshown
          · exact fun hshown => ⟨operand, ty, hread, hshown⟩
      | leaf | comparison | arithmetic | virtualCall | staticCall =>
          refine iff_of_false ?_ Bool.false_ne_true
          rintro ⟨operand', ty', hread', -⟩
          cases hread.symm.trans hread'

/-- A root reaches no negation of a node with a property exactly if its term has none inside. -/
theorem Unfolds.lacks_negates_iff (hpq : ∀ node t, g.Spells node t → p node = q t)
    (hroot : g.Unfolds root t) :
    (∀ id, g.Reaches root id → ¬ g.Negates p id) ↔ t.Lacks (Term.negates q) := by
  refine hroot.forall_reaches_iff fun id s hid => ?_
  rw [hid.negates_iff hpq, Bool.not_eq_true]

end Graph

/-- A run leaves no negated comparison.  If a sound root reaches no negation of a comparison, and none
    of a call of a method in the standard table with an argument, then any answer of a run, with any
    groups of rules and any number of passes, reaches no negation of a comparison. -/
theorem simplify_negates_no_comparison (w : Workspace) (root : NodeId)
    (hsound : w.graph.Sound root)
    (hplain : ∀ id, w.graph.Reaches root id → ¬ w.graph.Negates (Node.isRelational .standard) id)
    (config : Config) (r : NodeId) (w' : Workspace)
    (hrun : simplify config root w = .ok (.ok r) w') :
    ∀ id, w'.graph.Reaches r id → ¬ w'.graph.Negates Node.isComparison id := by
  obtain ⟨t, hroot⟩ := Graph.exists_unfolds_iff.mpr hsound
  obtain ⟨-, k, hr, -⟩ := (ends_simplify hroot).of_ok hrun
  have hterm : t.Lacks (Term.negates (Term.isRelational .standard)) :=
    (hroot.lacks_negates_iff fun _ _ hspells => hspells.isRelational_eq .standard).mp hplain
  -- What the chosen rules read as a comparison can be read as one.
  have hrules : t.Lacks (Term.negates config.toRules.isRelational) :=
    hterm.negates_mono fun x _ hx => Bool.eq_false_of_not_eq_true fun happlies =>
      Bool.false_ne_true (hx.symm.trans (Rules.isRelational_of_rules happlies))
  exact (hr.lacks_negates_iff fun _ _ hspells => hspells.isComparison_eq).mpr
    (Rules.lacks_negates_iterate hrules k)

/-- The answer for the small graph is a negation, but not of a comparison. -/
theorem simplify_negates_no_comparison_sample :
    Graph.sample.Sound ⟨3⟩ ∧
      (∀ id, Graph.sample.Reaches ⟨3⟩ id →
        ¬ Graph.sample.Negates (Node.isRelational .standard) id) ∧
      ∃ w', simplify ⟨.all, 3, true⟩ ⟨3⟩ (.ofGraph .sample) = .ok (.ok ⟨5⟩) w' ∧
        w'.graph.node ⟨5⟩ = .ok (.negation ⟨0⟩) ∧
        ∀ id, w'.graph.Reaches ⟨5⟩ id → ¬ w'.graph.Negates Node.isComparison id := by
  have hplain : ∀ id, Graph.sample.Reaches ⟨3⟩ id →
      ¬ Graph.sample.Negates (Node.isRelational .standard) id := by
    refine (Graph.sample_unfolds.lacks_negates_iff
      fun _ _ hspells => hspells.isRelational_eq .standard).mpr ?_
    simp [Term.Lacks, Term.subterms, Term.negates]
  exact ⟨Graph.sample_sound, hplain, _, rfl, rfl,
    simplify_negates_no_comparison (.ofGraph .sample) ⟨3⟩ Graph.sample_sound hplain
      ⟨.all, 3, true⟩ ⟨5⟩ _ rfl⟩

end ValueGraph
