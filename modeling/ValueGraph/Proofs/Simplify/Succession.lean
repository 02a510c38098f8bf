/-
  ValueGraph.Proofs.Simplify.Succession

  Consecutive passes that need not have the same rules.

  Passes lead from a root in a graph to a root in another graph if each of them
  starts where the one before has ended, or where something has been stored
  since; which groups of rules each applies is its own choice (`PassesLead`).
  The passes of a run are such passes, all with the groups of its settings and
  with nothing stored in between (`passesLead_of_simplify`).

  The term of the root is rewritten by each pass in turn, so what every rewriting
  preserves holds of the term wherever passes lead (`PassesLead.exists_unfolds`).
-/
import ValueGraph.Proofs.Simplify.Sharing
import ValueGraph.Proofs.Simplify.Trail

namespace ValueGraph

open ValueGraph.Graph (Extends)

/-- Some passes, one after the other and each with groups of its own, lead from `root` over `g` to
    another root over another graph.  Between them other things may be stored. -/
inductive PassesLead (methods : MethodTable) (g : Graph) (root : NodeId) : Graph → NodeId → Prop
  | none : PassesLead methods g root g root
  | pass {h h' : Graph} {r image : NodeId} (groups : RuleGroups) :
      PassesLead methods g root h r → Rules.passOn ⟨methods, groups⟩ h r = some (image, h') →
      PassesLead methods g root h' image
  | grow {h h' : Graph} {r : NodeId} :
      PassesLead methods g root h r → Extends h h' → PassesLead methods g root h' r

variable {methods : MethodTable} {rules : Rules} {g h : Graph} {w w' : Workspace}
  {root r image : NodeId} {t : Term}

namespace Rules

/-- A pass on its own rewrites the term of its root. -/
theorem unfolds_of_passOn (hroot : g.Unfolds root t)
    (hpass : rules.passOn g root = some (image, h)) : h.Unfolds image (rules.rewrite t) := by
  have hroot' : (Workspace.ofGraph g).graph.Unfolds root t := hroot
  obtain ⟨w', hrun, rfl⟩ := exists_pass_of_passOn (w := .ofGraph g) hpass 1
  exact ((ends_pass_rewrites hroot' 1).of_ok hrun).term

/-- The nodes that a pass over the graph of `w` has finished are those that its root reaches, and
    their images stand for their rewritten terms. -/
structure Finishes (rules : Rules) (root : NodeId) (w w' : Workspace) : Prop where
  exists_image : ∀ id, w.graph.Reaches root id → ∃ new, w'.images[id]? = some new
  of_image : ∀ id new, w'.images[id]? = some new →
    w.graph.Reaches root id ∧ ∃ s, w.graph.Unfolds id s ∧ w'.graph.Unfolds new (rules.rewrite s)

theorem ends_pass_finishes (hroot : w.graph.Unfolds root t) (number : Nat) :
    Ends (rules.pass number root) w (fun _ w' => rules.Finishes root w w') (·.graph.Full) := by
  rcases ends_pass hroot number with ⟨image, w', hrun, htracks, -, -⟩ | hfault
  · have hshares := (ends_pass_shares hroot rules number).of_ok hrun
    refine Or.inl ⟨image, w', hrun, fun id => (hshares.finished id).mpr, fun id new hnew => ?_⟩
    exact ⟨(hshares.finished id).mp ⟨new, hnew⟩, htracks.images id new hnew⟩
  · exact Or.inr hfault

end Rules

/-- What every rewriting preserves holds of the term of the root wherever passes lead. -/
theorem PassesLead.exists_unfolds {motive : Term → Prop}
    (step : ∀ (groups : RuleGroups) (s : Term), motive s → motive (Rules.rewrite ⟨methods, groups⟩ s))
    (hlead : PassesLead methods g root h r) (hroot : g.Unfolds root t) (hstart : motive t) :
    ∃ s, h.Unfolds r s ∧ motive s := by
  induction hlead with
  | none => exact ⟨t, hroot, hstart⟩
  | pass groups _ hpass ih =>
      obtain ⟨s, hr, hs⟩ := ih
      exact ⟨_, Rules.unfolds_of_passOn hr hpass, step groups s hs⟩
  | grow _ hgrown ih =>
      obtain ⟨s, hr, hs⟩ := ih
      exact ⟨s, hr.mono hgrown, hs⟩

/-- The passes of a run lead to its answer. -/
theorem passesLead_of_simplify {config : Config} (hrun : simplify config root w = .ok (.ok r) w') :
    PassesLead .standard w.graph root w'.graph r := by
  cases hstored : w.graph.contains root with
  | false =>
      rw [simplify_of_unknown hstored] at hrun
      cases hrun
  | true =>
      obtain ⟨last, hlead, hanswer⟩ := simplify_induct
        (motive := fun last v => PassesLead .standard w.graph root v.graph last)
        (fun number r image v v' hpass hlead =>
          hlead.pass config.groups (Rules.passOn_of_pass hpass))
        hstored .none hrun
      rcases hanswer with hok | ⟨hfailed, -⟩
      · cases hok
        exact hlead
      · cases hfailed

end ValueGraph
