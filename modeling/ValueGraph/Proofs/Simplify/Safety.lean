/-
  ValueGraph.Proofs.Simplify.Safety

  A run over a well-formed graph is safe.

  The invariant is `Workspace.Grounded`: the graph is well-formed, and every image
  is stored.  A step preserves it, since it stores nodes only over images and over
  operands of images (`Processed.grounded`).  So every pass leaves the graph
  well-formed, and its answer is a stored node, from which the next pass can begin
  (`wellFormed_of_pass`).  Nothing that a run looks for is missing, and no list
  that it stores is too long: only a full graph can stop it (`ends_simplify`).
-/
import ValueGraph.Proofs.Graph.WellFormed
import ValueGraph.Proofs.Simplify.Induction
import ValueGraph.Proofs.Simplify.Run
import ValueGraph.Proofs.Simplify.Schedule

namespace ValueGraph

open ValueGraph.Graph (Extends WellFormed)

/-! ## What a step stores -/

namespace Graph

variable {g h : Graph} {id renewed image : NodeId} {node : Node} {kind kind' : Kind}
  {ids news : List NodeId} {replacement : Replacement}

theorem Lists.wellFormed {args : List NodeId} {span : Span} (hlists : g.Lists h args span)
    (hg : g.WellFormed) : h.WellFormed := by
  rcases hlists.grown with rfl | rfl
  · exact hg
  · exact hg.addEntries args

theorem Rebuilds.wellFormed (hrebuilds : g.Rebuilds kind news kind' h) (hg : g.WellFormed) :
    h.WellFormed := by
  cases hrebuilds with
  | leaf | comparison | arithmetic | negation => exact hg
  | virtualCall _ hlists | staticCall _ hlists => exact hlists.wellFormed hg

/-- A node over stored nodes leaves the graph well-formed, and is stored. -/
theorem Renews.wellFormed (hrenews : g.Renews id node news renewed h)
    (hnode : g.node id = .ok node) (hg : g.WellFormed) (hnews : ∀ x ∈ news, x.index < g.size) :
    h.WellFormed ∧ renewed.index < h.size := by
  cases hrenews with
  | same hrebuilds =>
      have hid := index_lt_of_node hnode
      exact ⟨hrebuilds.wellFormed hg, Nat.lt_of_lt_of_le hid hrebuilds.extends.size_le⟩
  | fresh _ hrebuilds hroom =>
      refine ⟨?_, index_lt_of_node (node_addNode hroom _)⟩
      refine (hrebuilds.wellFormed hg).addNode hrebuilds.operandIds fun x hx => ?_
      exact Nat.lt_of_lt_of_le (hnews x hx) hrebuilds.extends.size_le

/-- So does what a rule puts in the place of a node over stored nodes. -/
theorem Places.wellFormed (hplaces : g.Places replacement image h)
    (hexposes : g.Exposes ids replacement) (hg : g.WellFormed)
    (hids : ∀ x ∈ ids, x.index < g.size) : h.WellFormed ∧ image.index < h.size := by
  cases hexposes with
  | stored hx =>
      cases hplaces with
      | stored => exact ⟨hg, hids _ hx⟩
  | fresh hnews hmem =>
      cases hplaces with
      | fresh hroom =>
          refine ⟨hg.addNode hnews fun child hchild => ?_, index_lt_of_node (node_addNode hroom _)⟩
          -- An operand of an operand comes before it, so it is stored as well.
          rcases hmem child hchild with hown | ⟨x, hx, hbelow⟩
          · exact hids child hown
          · exact Nat.lt_trans (hg.index_lt (hids x hx) hbelow) (hids x hx)

end Graph

/-- The graph is well-formed, and every image is a stored node. -/
structure Workspace.Grounded (w : Workspace) : Prop where
  graph : w.graph.WellFormed
  images : ∀ id image : NodeId, w.images[id]? = some image → image.index < w.graph.size

namespace Rules

variable {rules : Rules} {w w' : Workspace} {id root image renewed : NodeId} {number : Nat}

theorem Applied.wellFormed (happlied : rules.Applied w renewed image w')
    (hw : w.graph.WellFormed) (hrenewed : renewed.index < w.graph.size) :
    w'.graph.WellFormed ∧ image.index < w'.graph.size := by
  cases happlied with
  | none => exact ⟨hw, hrenewed⟩
  | some hnode hfires hplaces =>
      obtain ⟨ids, hids, hbelow⟩ := hw.exists_children hrenewed
      have hexposes := hfires.exposes ((Graph.children_of_node hnode).symm.trans hids)
      exact hplaces.wellFormed hexposes hw fun x hx => Nat.lt_trans (hbelow x hx) hrenewed

theorem Processed.grounded (hprocessed : rules.Processed id w w') (hw : w.Grounded) :
    w'.Grounded := by
  have hsize := hprocessed.extends.size_le
  cases hprocessed with
  | @intro node ids news renewed image g w' hnode _ hnews hrenews happlied =>
      have hstored : ∀ x ∈ news, x.index < w.graph.size := by
        intro x hx
        obtain ⟨old, -, hold⟩ := exists_of_mem_forall₂ hnews hx
        exact hw.images old x hold
      obtain ⟨hgraph, hrenewed⟩ := hrenews.wellFormed hnode hw.graph hstored
      obtain ⟨hgraph', himage⟩ := happlied.wellFormed hgraph hrenewed
      refine ⟨hgraph', ?_⟩
      rw [happlied.images_eq]
      refine forall_insert_images himage fun other new hfound => ?_
      exact Nat.lt_of_lt_of_le (hw.images other new hfound) hsize

/-- A pass from a stored node leaves a well-formed graph well-formed, and answers a stored node. -/
theorem wellFormed_of_pass (hw : w.graph.WellFormed) (hroot : root.index < w.graph.size)
    (hrun : rules.pass number root w = .ok image w') :
    w'.graph.WellFormed ∧ image.index < w'.graph.size := by
  obtain ⟨t, hterm⟩ := Graph.exists_unfolds_iff.mpr (hw.sound hroot)
  obtain ⟨order, w₁, hschedule, -, hprocessed, hanswer, rfl⟩ := exists_walked hterm hrun
  have hbegun : Workspace.Grounded { w with images := ∅, replaced := 0 } := by
    refine ⟨hw, fun id image hfound => ?_⟩
    exact absurd ⟨image, hfound⟩ (mt ((ready_begun w).finished id).mp (Set.notMem_empty id))
  have hgrounded : w₁.Grounded := by
    refine processAll_induct (motive := fun _ v => v.Grounded) ?_ hschedule (ready_begun w) hbegun
      hprocessed
    exact fun seen id v v' _ hturn hv => hturn.processed.grounded hv
  exact ⟨hgrounded.graph, hgrounded.images root image hanswer⟩

end Rules

/-! ## A whole run -/

/-- How a run over a well-formed graph may end: the graph is well-formed again, and the answer is a
    root that the graph contains, or else the passes were not enough for a run that has to settle.
    In a full graph the last node has no valid identifier, so it is stored but not contained. -/
structure Safe (config : Config) (answer : Except RunError NodeId) (w' : Workspace) : Prop where
  graph : w'.graph.WellFormed
  answer : (∃ r, answer = .ok r ∧ (w'.graph.contains r = true ∨ w'.graph.Full)) ∨
    answer = .error (.unsettled config.passes) ∧ config.mustSettle = true

theorem safe_of_simplify {config : Config} {w w' : Workspace} {root : NodeId}
    {answer : Except RunError NodeId} (hw : w.graph.WellFormed)
    (hstored : w.graph.contains root = true) (hrun : simplify config root w = .ok answer w') :
    Safe config answer w' := by
  have hroot := Graph.index_lt_of_contains hstored
  obtain ⟨r, ⟨hgraph, hr⟩, hanswer⟩ := simplify_induct
    (motive := fun r v => v.graph.WellFormed ∧ r.index < v.graph.size)
    (fun number r image v v' hpass ⟨hv, hr⟩ => Rules.wellFormed_of_pass hv hr hpass)
    hstored ⟨hw, hroot⟩ hrun
  refine ⟨hgraph, hanswer.imp_left fun hok => ⟨r, hok, ?_⟩⟩
  cases hcontained : w'.graph.contains r with
  | true => exact Or.inl rfl
  | false => exact Or.inr (Graph.full_of_contains_eq_false hcontained hr)

/-- Well-formed graphs are safe.  A builder that is given stored nodes leaves a well-formed graph
    well-formed, whether it answers or is stopped by a limit of the graph.  A run over a well-formed
    graph from a root that it contains is stopped by nothing but a full graph.  If it is not
    stopped, the graph is well-formed again; the run answers a root that the graph contains, and
    fails only if it has to settle and the passes were not enough.  A run over any graph from a root
    that it does not contain says so, and leaves the graph as it was. -/
theorem simplify_safe :
    (∀ (b : Builder) (g : Graph), g.WellFormed → (∀ id ∈ b.operands, g.contains id = true) →
      Preserves b.run g fun _ _ => True) ∧
    (∀ (config : Config) (w : Workspace) (root : NodeId), w.graph.WellFormed →
      w.graph.contains root = true →
      Ends (simplify config root) w (Safe config) (·.graph.Full)) ∧
    (∀ (config : Config) (w : Workspace) (root : NodeId), w.graph.contains root = false →
      ∃ w', simplify config root w = .ok (.error (.unknownRoot root)) w' ∧
        w'.graph = w.graph) := by
  refine ⟨fun b g hg hoperands => b.preserves hg hoperands, fun config w root hw hstored => ?_,
    fun config w root hmissing => ⟨_, simplify_of_unknown hmissing, rfl⟩⟩
  have hsound := hw.sound (Graph.index_lt_of_contains hstored)
  obtain ⟨t, hroot⟩ := Graph.exists_unfolds_iff.mpr hsound
  rcases ends_simplify hroot with ⟨answer, w', hrun, -⟩ | hfault
  · exact Or.inl ⟨answer, w', hrun, safe_of_simplify hw hstored hrun⟩
  · exact Or.inr hfault

/-- The small graph can be built upon and simplified, and the invalid identifier is no root in
    it. -/
theorem simplify_safe_sample :
    Graph.sample.WellFormed ∧ Graph.sample.contains ⟨3⟩ = true ∧
      Graph.sample.contains .invalid = false ∧
      (∃ h, (Builder.negation ⟨3⟩).run .sample = .ok () h ∧ h.WellFormed) ∧
      (∃ w', simplify ⟨.all, 3, true⟩ ⟨3⟩ (.ofGraph .sample) = .ok (.ok ⟨5⟩) w' ∧
        w'.graph.WellFormed) ∧
      ∃ w', simplify ⟨.all, 3, true⟩ .invalid (.ofGraph .sample)
        = .ok (.error (.unknownRoot .invalid)) w' ∧ w'.graph = .sample := by
  obtain ⟨hbuilder, hrun, hunknown⟩ := simplify_safe
  refine ⟨Graph.built_sample.wellFormed, rfl, rfl, ?_, ?_, ?_⟩
  · rcases hbuilder (.negation ⟨3⟩) .sample Graph.built_sample.wellFormed (by decide) with
      ⟨_, h, hok, hh, -⟩ | ⟨fault, h, herror, -⟩
    · exact ⟨h, hok, hh⟩
    · cases herror
  · rcases hrun ⟨.all, 3, true⟩ (.ofGraph .sample) ⟨3⟩ Graph.built_sample.wellFormed rfl with
      ⟨answer, w', hok, hsafe⟩ | ⟨fault, w', herror, -⟩
    · cases hok
      exact ⟨_, rfl, hsafe.graph⟩
    · cases herror
  · exact hunknown ⟨.all, 3, true⟩ (.ofGraph .sample) .invalid rfl

end ValueGraph
