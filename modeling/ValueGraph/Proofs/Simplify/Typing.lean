/-
  ValueGraph.Proofs.Simplify.Typing

  A run keeps types.

  What is asked of the types is that truth values are typed as such: every
  comparison that the root reaches, and every call that can be read as one, is of
  the boolean type (`Graph.TypesTruth`).  Then the answer of a run has the type
  of its root, or the root was of the boolean type and has been decided
  (`Graph.KeepsType`); in each pass the same holds between every node and its
  image, and the types of truth values are as they were asked to be
  (`simplify_keeps_types`).
-/
import ValueGraph.Proofs.Graph.Showing
import ValueGraph.Proofs.Simplify.Succession
import ValueGraph.Proofs.Term.Typing

namespace ValueGraph

namespace Node

/-- Whether the node is a comparison or can be read as one, but is no truth value by its type. -/
def isMistyped (methods : MethodTable) (node : Node) : Bool :=
  node.isRelational methods && !node.ty.isBoolean

/-- A node has the type of another, or it is a literal that decides a truth value. -/
def KeepsType (old new : Node) : Prop :=
  new.ty = old.ty ∨ old.ty = .boolean ∧ ∃ holds : Bool, new = .truth holds

end Node

namespace Graph

/-- Every comparison that a root reaches, and every call that can be read as one, is of the boolean
    type. -/
def TypesTruth (g : Graph) (methods : MethodTable) (root : NodeId) : Prop :=
  ∀ id node, g.Reaches root id → g.node id = .ok node → node.isRelational methods = true →
    node.ty = .boolean

/-- The node stored under `new` in `h` has the type of the one under `id` in `g`, or decides it. -/
def KeepsType (g : Graph) (id : NodeId) (h : Graph) (new : NodeId) : Prop :=
  ∃ old node, g.node id = .ok old ∧ h.node new = .ok node ∧ old.KeepsType node

variable {methods : MethodTable} {g h : Graph} {root id new : NodeId} {node old : Node}
  {s t : Term}

theorem Spells.isMistyped_eq (hspells : g.Spells node t) (methods : MethodTable) :
    node.isMistyped methods = t.isMistyped methods := by
  rw [Node.isMistyped, hspells.isRelational_eq, hspells.ty_eq, Term.isMistyped]

theorem typesTruth_iff (hroot : g.Unfolds root t) :
    g.TypesTruth methods root ↔ t.Lacks (Term.isMistyped methods) := by
  rw [← hroot.lacks_iff fun _ _ hspells => hspells.isMistyped_eq methods]
  constructor
  · rintro htyped id hreach ⟨node, hread, hmistyped⟩
    rw [Node.isMistyped, Bool.and_eq_true, Bool.not_eq_true'] at hmistyped
    have hty : node.ty = .boolean := htyped id node hreach hread hmistyped.1
    rw [hty] at hmistyped
    cases hmistyped.2
  · intro hlacks id node hreach hread hrelational
    by_contra hty
    exact hlacks id hreach ⟨node, hread, by simp [Node.isMistyped, hrelational, Ty.isBoolean, hty]⟩

theorem Spells.keepsType (hold : g.Spells old s) (hnew : h.Spells node t) (hkeeps : s.KeepsType t) :
    old.KeepsType node := by
  rw [Node.KeepsType, hold.ty_eq, hnew.ty_eq]
  refine hkeeps.imp_right (And.imp_right ?_)
  rintro ⟨holds, rfl⟩
  cases hnew
  exact ⟨holds, rfl⟩

theorem Unfolds.keepsType (hid : g.Unfolds id s) (hnew : h.Unfolds new t)
    (hkeeps : s.KeepsType t) : g.KeepsType id h new := by
  obtain ⟨hread, hold⟩ := hid
  obtain ⟨hread', hspells⟩ := hnew
  exact ⟨_, _, hread, hread', hold.keepsType hspells hkeeps⟩

end Graph

/-- Wherever passes lead from a well-typed term, the term there is well typed, and it keeps the type
    of the first one. -/
theorem PassesLead.exists_keepsType {methods : MethodTable} {g h : Graph} {root r : NodeId}
    {t : Term} (hlead : PassesLead methods g root h r) (hroot : g.Unfolds root t)
    (htyped : t.Lacks (Term.isMistyped methods)) :
    ∃ s, h.Unfolds r s ∧ s.Lacks (Term.isMistyped methods) ∧ t.KeepsType s := by
  refine hlead.exists_unfolds ?_ hroot ⟨htyped, Or.inl rfl⟩
  rintro groups s ⟨hs, hkeeps⟩
  exact ⟨Rules.lacks_isMistyped_rewrite hs _, hkeeps.rewrite hs⟩

/-- A run keeps types.  Let every comparison that a sound root reaches, and every call of a method in
    the standard table with an argument, be of the boolean type.  Then any answer of a run has the
    type of the root, unless the root is of the boolean type and the answer is the literal 0 or 1;
    and the answer reaches only comparisons of the boolean type.  The same holds in every pass:
    wherever passes lead from the root, those of a run or others, every node that the next pass
    comes to has an image that keeps its type in this way.  Only a full graph can stop a pass. -/
theorem simplify_keeps_types (w : Workspace) (root : NodeId) (hsound : w.graph.Sound root)
    (htyped : w.graph.TypesTruth .standard root) :
    (∀ (config : Config) (r : NodeId) (w' : Workspace), simplify config root w = .ok (.ok r) w' →
      w.graph.KeepsType root w'.graph r ∧ w'.graph.TypesTruth .standard r) ∧
    ∀ (h : Graph) (r : NodeId), PassesLead .standard w.graph root h r →
      ∀ (groups : RuleGroups) (number : Nat) (v : Workspace), v.graph = h →
        Ends (Rules.pass ⟨.standard, groups⟩ number r) v
          (fun _ v' => ∀ id, h.Reaches r id →
            ∃ new, v'.images[id]? = some new ∧ h.KeepsType id v'.graph new)
          (·.graph.Full) := by
  obtain ⟨t, hroot⟩ := Graph.exists_unfolds_iff.mpr hsound
  have hterm : t.Lacks (Term.isMistyped .standard) := (Graph.typesTruth_iff hroot).mp htyped
  constructor
  · intro config r w' hrun
    have hlead : PassesLead .standard w.graph root w'.graph r := passesLead_of_simplify hrun
    obtain ⟨s, hr, hs, hkeeps⟩ := hlead.exists_keepsType hroot hterm
    exact ⟨hroot.keepsType hr hkeeps, (Graph.typesTruth_iff hr).mpr hs⟩
  · rintro h r hlead groups number v rfl
    obtain ⟨s, hr, hs, -⟩ := hlead.exists_keepsType hroot hterm
    refine (Rules.ends_pass_finishes hr number).mono ?_
    intro _ v' hfinishes id hreach
    obtain ⟨new, hnew⟩ := hfinishes.exists_image id hreach
    obtain ⟨-, o, hid, himage⟩ := hfinishes.of_image id new hnew
    -- The node stands for a term inside that of the root, which is well typed as well.
    obtain ⟨o', hinside, hid'⟩ := hr.of_reaches hreach
    cases hid.unique hid'
    have ho : o.Lacks (Term.isMistyped .standard) := hs.of_mem_subterms hinside
    exact ⟨new, hnew, hid.keepsType himage (Rules.keepsType_rewrite ho)⟩

/-- The call of two literals is decided in the second pass: in the first one every node has an image
    of its type, and the answer of the run is the literal 1. -/
theorem simplify_keeps_types_sample :
    Graph.literalsSample.Sound ⟨1⟩ ∧ Graph.literalsSample.TypesTruth .standard ⟨1⟩ ∧
      (∃ w', simplify ⟨.all, 2, true⟩ ⟨1⟩ (.ofGraph .literalsSample) = .ok (.ok ⟨3⟩) w' ∧
        w'.graph.node ⟨3⟩ = .ok (.truth true) ∧
        Graph.literalsSample.KeepsType ⟨1⟩ w'.graph ⟨3⟩) ∧
      Ends (Rules.pass ⟨.standard, .all⟩ 1 ⟨1⟩) (.ofGraph .literalsSample)
        (fun _ v' => ∀ id, Graph.literalsSample.Reaches ⟨1⟩ id →
          ∃ new, v'.images[id]? = some new ∧ Graph.literalsSample.KeepsType id v'.graph new)
        (·.graph.Full) := by
  have htyped : Graph.literalsSample.TypesTruth .standard ⟨1⟩ := by
    refine (Graph.typesTruth_iff Graph.literalsSample_unfolds).mpr ?_
    simp [Term.Lacks, Term.subterms, Term.subtermsOfAll, Term.isMistyped, Term.isRelational,
      Term.isComparison, Term.isComparingCall, Term.ty, Ty.isBoolean]
  obtain ⟨hrun, hpasses⟩ := simplify_keeps_types (.ofGraph .literalsSample) ⟨1⟩
    Graph.literalsSample_sound htyped
  have hkeeps := (hrun ⟨.all, 2, true⟩ ⟨3⟩ _ rfl).1
  exact ⟨Graph.literalsSample_sound, htyped, ⟨_, rfl, rfl, hkeeps⟩,
    hpasses _ _ .none .all 1 _ rfl⟩

end ValueGraph
