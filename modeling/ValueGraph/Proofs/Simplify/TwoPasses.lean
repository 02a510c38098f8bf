/-
  ValueGraph.Proofs.Simplify.TwoPasses

  Graphs that settle within two passes.

  What a rule leaves is canonical over canonical operands, unless the rule opens
  a three-way compare or reads a call as a comparison.  The terms for which this
  is so are told by the nodes that the root reaches (`Unfolds.lacks_iff`), and a
  run is decided by the term of its root; so without three-way compares to open
  two passes are enough, and without calls that a rule applies to one pass is
  (`simplify_settles_soon`).
-/
import ValueGraph.Proofs.Graph.Showing
import ValueGraph.Proofs.Simplify.Convergence
import ValueGraph.Proofs.Term.Settling

namespace ValueGraph

/-- A run answers a root at which there is nothing left to do: a later pass with the same rules
    keeps the root, replaces nothing and leaves the graph as it is.  Only a full graph stops it. -/
def Config.Settles (config : Config) (root : NodeId) (w : Workspace) : Prop :=
  Ends (simplify config root) w
    (fun answer w' => ∃ r, answer = .ok r ∧
      ∀ (number : Nat) (v : Workspace), v.graph = w'.graph →
        ∃ images, config.toRules.pass number r v
          = .ok r ⟨v.graph, images, 0, v.log.push (.passed number 0 0)⟩)
    (·.graph.Full)

variable {config : Config} {w : Workspace} {root : NodeId} {t : Term}

theorem settles_of_canonical (hroot : w.graph.Unfolds root t)
    (hstored : w.graph.contains root = true)
    (hcanonical : config.toRules.Canonical (config.simplified t)) : config.Settles root w := by
  refine (ends_simplify_outcome hroot hstored).mono ?_
  rintro answer w' ⟨-, houtcome⟩
  cases houtcome with
  | unsettled hfails => exact absurd (fun _ => hcanonical) hfails
  | @answered r _ hr =>
      refine ⟨r, rfl, fun number v hgraph => ?_⟩
      have hr' : v.graph.Unfolds r (config.simplified t) := by
        rw [hgraph]
        exact hr
      exact Rules.pass_of_canonical hr' hcanonical number

/-- Once a term is canonical, rewriting it more often makes no difference. -/
theorem Rules.canonical_iterate {rules : Rules} {m n : Nat} (hle : m ≤ n)
    (hcanonical : rules.Canonical (rules.rewrite^[m] t)) :
    rules.Canonical (rules.rewrite^[n] t) := by
  obtain ⟨k, rfl⟩ := Nat.exists_eq_add_of_le' hle
  rw [Function.iterate_add_apply, Function.iterate_fixed hcanonical.rewrite_eq]
  exact hcanonical

/-- Graphs without three-way compares settle within two passes.  If the rules for zeros are not
    chosen, or no three-way compare is reachable from a sound root, then a run that may do two
    passes answers a root at which there is nothing left to do.  If, moreover, the rule for methods
    is not chosen, or no call of a method in the standard table with an argument is reachable, then
    every run does, so that one pass is enough.  Only a full graph can stop them. -/
theorem simplify_settles_soon (config : Config) (w : Workspace) (root : NodeId)
    (hsound : w.graph.Sound root) (hstored : w.graph.contains root = true)
    (hcompares : config.groups.zero = false ∨
      ∀ id, w.graph.Reaches root id → ¬ w.graph.Shows Node.isThreeWay id) :
    (2 ≤ config.passLimit.toNat → config.Settles root w) ∧
    ((config.groups.methods = false ∨
        ∀ id, w.graph.Reaches root id → ¬ w.graph.Shows (Node.isComparingCall .standard) id) →
      config.Settles root w) := by
  obtain ⟨t, hroot⟩ := Graph.exists_unfolds_iff.mpr hsound
  have hcompareFree : config.toRules.CompareFree t :=
    hcompares.imp_right (hroot.lacks_iff fun _ _ hspells => hspells.isThreeWay_eq).mp
  constructor
  · intro htwo
    apply settles_of_canonical hroot hstored
    have hpasses : 2 ≤ config.passes.toNat := htwo.trans config.passLimit_le_passes
    exact Rules.canonical_iterate hpasses (Rules.canonical_rewrite_rewrite hcompareFree)
  · intro hcalls
    apply settles_of_canonical hroot hstored
    have hcallFree : config.toRules.CallFree t :=
      hcalls.imp_right
        (hroot.lacks_iff fun _ _ hspells => hspells.isComparingCall_eq .standard).mp
    have hpasses : 1 ≤ config.passes.toNat := config.passes_pos
    exact Rules.canonical_iterate hpasses (Rules.canonical_rewrite hcompareFree hcallFree)

/-- Two passes are enough for the call, but one is not.  It is for the small graph, which has no
    calls. -/
theorem simplify_settles_soon_sample :
    Graph.literalsSample.Sound ⟨1⟩ ∧ Graph.literalsSample.contains ⟨1⟩ = true ∧
      (∀ id, Graph.literalsSample.Reaches ⟨1⟩ id →
        ¬ Graph.literalsSample.Shows Node.isThreeWay id) ∧
      (∃ w', simplify ⟨.all, 1, true⟩ ⟨1⟩ (.ofGraph .literalsSample)
        = .ok (.error (.unsettled 1)) w') ∧
      Config.Settles ⟨.all, 2, true⟩ ⟨1⟩ (.ofGraph .literalsSample) ∧
      Config.Settles ⟨.all, 1, true⟩ ⟨3⟩ (.ofGraph .sample) := by
  have hsound := Graph.exists_unfolds_iff.mp ⟨_, Graph.literalsSample_unfolds⟩
  have hliterals : ∀ id, Graph.literalsSample.Reaches ⟨1⟩ id →
      ¬ Graph.literalsSample.Shows Node.isThreeWay id := by
    refine (Graph.literalsSample_unfolds.lacks_iff fun _ _ h => h.isThreeWay_eq).mpr ?_
    simp [Term.Lacks, Term.subterms, Term.subtermsOfAll, Term.isThreeWay]
  have hcompares : ∀ id, Graph.sample.Reaches ⟨3⟩ id → ¬ Graph.sample.Shows Node.isThreeWay id := by
    refine (Graph.sample_unfolds.lacks_iff fun _ _ h => h.isThreeWay_eq).mpr ?_
    simp [Term.Lacks, Term.subterms, Term.isThreeWay]
  have hcalls : ∀ id, Graph.sample.Reaches ⟨3⟩ id →
      ¬ Graph.sample.Shows (Node.isComparingCall .standard) id := by
    refine (Graph.sample_unfolds.lacks_iff fun _ _ h => h.isComparingCall_eq .standard).mpr ?_
    simp [Term.Lacks, Term.subterms, Term.isComparingCall]
  have htwo := simplify_settles_soon ⟨.all, 2, true⟩ (.ofGraph .literalsSample) ⟨1⟩ hsound rfl
    (Or.inr hliterals)
  have hone := simplify_settles_soon ⟨.all, 1, true⟩ (.ofGraph .sample) ⟨3⟩ Graph.sample_sound rfl
    (Or.inr hcompares)
  exact ⟨hsound, rfl, hliterals, ⟨_, rfl⟩, htwo.1 (Nat.le_refl 2), hone.2 (Or.inr hcalls)⟩

end ValueGraph
