/-
  ValueGraph.Proofs.Simplify.Landmarks

  A run keeps the landmarks of its root, in their order.

  The invariant is `Workspace.Matches`: every image has the landmarks of the node
  whose image it is.  A node over the images of its operands has the landmarks of
  the node, and no rule touches a landmark: what a rule drops is a comparison, a
  literal zero, a three-way compare or a call of a comparing method, and what it
  swaps is a zero (`hasLandmarks_of_fires`).  So a step preserves the invariant
  (`matches_of_turn`), a pass keeps the landmarks of its root
  (`hasLandmarks_of_pass`), and so does a run.
-/
import ValueGraph.Proofs.Graph.Preorder
import ValueGraph.Proofs.Simplify.Induction
import ValueGraph.Proofs.Simplify.Run
import ValueGraph.Proofs.Simplify.Schedule

namespace ValueGraph

open ValueGraph.Graph (Extends after)

/-! ## What the rules do to landmarks -/

namespace Graph

variable {g h : Graph} {rules : Rules} {methods : MethodTable} {id renewed image : NodeId}
  {node : Node} {kind : Kind} {ids news : List NodeId} {marks below : List Landmark}
  {replacement : Replacement}

/-- An integer literal has no landmark. -/
theorem hasLandmarks_int {value : Int32} {ty : Ty}
    (hnode : g.node id = .ok ⟨.leaf (.int value), ty⟩) (h : g.HasLandmarks methods [id] marks) :
    marks = [] := by
  obtain ⟨-, below, hbelow, rfl⟩ := (hasLandmarks_singleton_iff hnode rfl).mp h
  exact hasLandmarks_nil.unique hbelow ▸ rfl

/-- A new node that is no landmark has those of its operands. -/
theorem Places.hasLandmarks_fresh (hplaces : g.Places (.fresh node) image h)
    (hids : g.operandIds node.kind = .ok ids) (hnarrow : node.kind.Narrow methods)
    (hmark : Occurrence.landmark? methods ⟨image, node⟩ = none)
    (hlandmarks : g.HasLandmarks methods ids below) : h.HasLandmarks methods [image] below := by
  cases hplaces with
  | fresh hroom =>
      have hgrown := Extends.addNode g node
      have hids' := operandIds_mono hgrown hids
      refine (hasLandmarks_singleton_iff (node_addNode hroom node) hids').mpr ?_
      exact ⟨hnarrow, below, hlandmarks.mono hgrown, by rw [hmark]; rfl⟩

/-- What may stand for `x op 0` has the landmarks of `x`. -/
theorem AgainstZero.hasLandmarks {op : RelOp} {x : NodeId} (hknown : g.AgainstZero op x replacement)
    (hplaces : g.Places replacement image h) (hx : g.HasLandmarks methods [x] marks) :
    h.HasLandmarks methods [image] marks := by
  cases hknown with
  | keep =>
      cases hplaces
      exact hx
  | complement hnode =>
      obtain ⟨-, below, hbelow, rfl⟩ := (hasLandmarks_singleton_iff hnode rfl).mp hx
      exact hplaces.hasLandmarks_fresh rfl trivial rfl hbelow
  | negate => exact hplaces.hasLandmarks_fresh rfl trivial rfl hx
  | @relate _ _ left right compare ty hnode hway =>
      obtain ⟨-, below, hbelow, rfl⟩ := (hasLandmarks_singleton_iff hnode rfl).mp hx
      have hmark : Occurrence.landmark? methods ⟨x, ⟨.arithmetic compare left right, ty⟩⟩ = none :=
        if_pos hway
      rw [hmark]
      exact hplaces.hasLandmarks_fresh rfl trivial rfl hbelow

theorem hasLandmarks_pair_iff {left right : NodeId} :
    g.HasLandmarks methods [left, right] marks ↔ ∃ first second,
      g.HasLandmarks methods [left] first ∧ g.HasLandmarks methods [right] second ∧
        marks = first ++ second :=
  hasLandmarks_cons_iff

/-- A rule fires on a node that is no landmark, and what stands for the node then has the landmarks
    of the operands. -/
theorem hasLandmarks_of_fires {firing : Firing} (hfires : g.Fires rules kind firing)
    (hids : g.operandIds kind = .ok ids) (hnarrow : kind.Narrow rules.methods)
    (hplaces : g.Places firing.replacement image h)
    (hlandmarks : g.HasLandmarks rules.methods ids below) :
    (∀ ty, Occurrence.landmark? rules.methods ⟨id, ⟨kind, ty⟩⟩ = none) ∧
      h.HasLandmarks rules.methods [image] below := by
  cases hfires with
  | fold _ _ hleft hright =>
      -- Neither literal has a landmark, and the literal in their place has none either.
      cases hids
      obtain ⟨first, second, hfirst, hsecond, rfl⟩ := hasLandmarks_pair_iff.mp hlandmarks
      rw [hasLandmarks_int hleft hfirst, hasLandmarks_int hright hsecond]
      exact ⟨fun _ => rfl, hplaces.hasLandmarks_fresh rfl trivial rfl hasLandmarks_nil⟩
  | leftZero _ hzero hknown =>
      cases hids
      obtain ⟨first, second, hfirst, hsecond, rfl⟩ := hasLandmarks_pair_iff.mp hlandmarks
      rw [hasLandmarks_int hzero hfirst]
      exact ⟨fun _ => rfl, hknown.hasLandmarks hplaces hsecond⟩
  | rightZero _ hzero hknown =>
      cases hids
      obtain ⟨first, second, hfirst, hsecond, rfl⟩ := hasLandmarks_pair_iff.mp hlandmarks
      rw [hasLandmarks_int hzero hsecond, List.append_nil]
      exact ⟨fun _ => rfl, hknown.hasLandmarks hplaces hfirst⟩
  | swap _ hzero =>
      -- The zero has no landmark, so it makes no difference on which side it stands.
      cases hids
      obtain ⟨first, second, hfirst, hsecond, rfl⟩ := hasLandmarks_pair_iff.mp hlandmarks
      have hnil := hasLandmarks_int hzero hfirst
      subst hnil
      refine ⟨fun _ => rfl, hplaces.hasLandmarks_fresh rfl trivial rfl ?_⟩
      exact hasLandmarks_pair_iff.mpr ⟨second, [], hsecond, hfirst, (List.append_nil second).symm⟩
  | @method sig op receiver first rest span _ hfind hargs =>
      obtain ⟨args, hargs', rfl⟩ := operandIds_virtualCall hids
      cases hargs.symm.trans hargs'
      have hknown : (rules.methods.find? sig).isSome = true := by rw [hfind]; rfl
      -- There is no other argument, so none is lost.
      have hsingle : rest = [] := by
        have hlength := length_of_args hargs
        have hle := hnarrow hknown
        rw [← hlength, List.length_cons] at hle
        exact List.length_eq_zero_iff.mp (by omega)
      subst hsingle
      exact ⟨fun _ => if_pos hknown, hplaces.hasLandmarks_fresh rfl trivial rfl hlandmarks⟩

/-- A node over other operands is a landmark if the node is, and the same one. -/
theorem Rebuilds.landmark?_eq {kind' : Kind} (hrebuilds : g.Rebuilds kind news kind' h)
    (hnew : kind' ≠ kind) (id other : NodeId) (ty : Ty) :
    Occurrence.landmark? methods ⟨other, ⟨kind', ty⟩⟩
      = Occurrence.landmark? methods ⟨id, ⟨kind, ty⟩⟩ := by
  cases hrebuilds with
  | leaf => exact absurd rfl hnew
  | comparison | arithmetic | negation | virtualCall | staticCall => rfl

theorem Rebuilds.narrow {kind' : Kind} (hrebuilds : g.Rebuilds kind news kind' h)
    (hnarrow : kind.Narrow methods) : kind'.Narrow methods := by
  cases hrebuilds with
  | leaf | comparison | arithmetic | negation | staticCall => trivial
  | virtualCall hlength hlists =>
      intro hknown
      rw [← length_of_args hlists.reads, hlength]
      exact hnarrow hknown

/-- A node over operands with the same landmarks has the same landmarks. -/
theorem Renews.hasLandmarks (hrenews : g.Renews id node news renewed h)
    (hnode : g.node id = .ok node) (hnarrow : node.kind.Narrow methods)
    (hnews : g.HasLandmarks methods news below) :
    h.HasLandmarks methods [renewed]
      ((Occurrence.landmark? methods ⟨id, node⟩).toList ++ below) := by
  have hgrown := hrenews.extends
  cases hrenews with
  | same hrebuilds =>
      have hnode' := hgrown.node_eq_ok hnode
      refine (hasLandmarks_singleton_iff hnode' hrebuilds.operandIds).mpr ?_
      exact ⟨hnarrow, below, hnews.mono hgrown, rfl⟩
  | @fresh kind h hnew hrebuilds hroom =>
      have hids := operandIds_mono (.addNode h ⟨kind, node.ty⟩) hrebuilds.operandIds
      refine (hasLandmarks_singleton_iff (node_addNode hroom _) hids).mpr ?_
      refine ⟨hrebuilds.narrow hnarrow, below, hnews.mono hgrown, ?_⟩
      rw [hrebuilds.landmark?_eq hnew id]

end Graph

/-! ## What a pass does to landmarks -/

/-- Every image has the landmarks of the node in `g` whose image it is. -/
def Workspace.Matches (methods : MethodTable) (g : Graph) (w : Workspace) : Prop :=
  ∀ id image, w.images[id]? = some image →
    ∃ marks, g.HasLandmarks methods [id] marks ∧ w.graph.HasLandmarks methods [image] marks

namespace Rules

variable {rules : Rules} {g : Graph} {w w' : Workspace} {id root image : NodeId}
  {seen : Set NodeId} {ids news : List NodeId} {marks : List Landmark}

theorem hasLandmarks_images (hw : w.Matches rules.methods g)
    (hnews : List.Forall₂ (fun old new => w.images[old]? = some new) ids news)
    (hids : g.HasLandmarks rules.methods ids marks) :
    w.graph.HasLandmarks rules.methods news marks := by
  induction hnews generalizing marks with
  | nil =>
      rw [hids.unique Graph.hasLandmarks_nil]
      exact Graph.hasLandmarks_nil
  | cons hnew _ ih =>
      obtain ⟨first, others, hfirst, hothers, rfl⟩ := Graph.hasLandmarks_cons_iff.mp hids
      obtain ⟨marks, hold, hnew⟩ := hw _ _ hnew
      rw [hfirst.unique hold]
      exact Graph.hasLandmarks_cons_iff.mpr ⟨marks, others, hnew, ih hothers, rfl⟩

theorem Applied.hasLandmarks (happlied : rules.Applied w id image w')
    (hid : w.graph.HasLandmarks rules.methods [id] marks) :
    w'.graph.HasLandmarks rules.methods [image] marks := by
  cases happlied with
  | none => exact hid
  | some hnode hfires hplaces =>
      obtain ⟨node, ids, hnode', hids, hnarrow, below, hbelow, rfl⟩ := hid.exists_node
      cases hnode.symm.trans hnode'
      obtain ⟨hmark, himage⟩ := Graph.hasLandmarks_of_fires hfires hids hnarrow hplaces hbelow
      rw [hmark]
      exact himage

theorem Processed.hasLandmarks_image (hprocessed : rules.Processed id w w')
    (hgrown : Extends g w.graph) (hid : g.HasLandmarks rules.methods [id] marks)
    (hw : w.Matches rules.methods g) :
    ∃ image, w'.images = w.images.insert id image ∧
      w'.graph.HasLandmarks rules.methods [image] marks := by
  obtain ⟨node, ids, hnode, hids, hnarrow, below, hbelow, rfl⟩ := hid.exists_node
  obtain ⟨hnode', hids', hnews, hrenews, happlied⟩ := hprocessed
  cases hnode'.symm.trans (hgrown.node_eq_ok hnode)
  cases hids'.symm.trans (Graph.operandIds_mono hgrown hids)
  have hrenewed := hrenews.hasLandmarks hnode' hnarrow (hasLandmarks_images hw hnews hbelow)
  exact ⟨_, by rw [happlied.images_eq], happlied.hasLandmarks hrenewed⟩

/-- Processing a node whose operands have been matched gives it a matching image. -/
theorem matches_of_turn (hturn : rules.Turn g seen id w w')
    (hid : g.HasLandmarks rules.methods [id] marks) (hw : w.Matches rules.methods g) :
    w'.Matches rules.methods g := by
  have hgrown := hturn.processed.extends
  obtain ⟨image, himages, himage⟩ := hturn.processed.hasLandmarks_image hturn.ready.grown hid hw
  rw [Workspace.Matches, himages]
  refine forall_insert_images ⟨marks, hid, himage⟩ fun other new hfound => ?_
  obtain ⟨marks', hother, hnew⟩ := hw other new hfound
  exact ⟨marks', hother, hnew.mono hgrown⟩

/-- A pass keeps the landmarks of its root. -/
theorem hasLandmarks_of_pass {number : Nat} {t : Term} (hroot : w.graph.Unfolds root t)
    (hmarks : w.graph.HasLandmarks rules.methods [root] marks)
    (hrun : rules.pass number root w = .ok image w') :
    w'.graph.HasLandmarks rules.methods [image] marks := by
  obtain ⟨order, w₁, hschedule, hmem, hprocessed, hanswer, rfl⟩ := exists_walked hroot hrun
  have hbegun : Workspace.Matches rules.methods w.graph { w with images := ∅, replaced := 0 } := by
    intro id image hfound
    exact absurd ⟨image, hfound⟩ (mt ((ready_begun w).finished id).mp (Set.notMem_empty id))
  have hmatches : w₁.Matches rules.methods w.graph := by
    refine processAll_induct (motive := fun _ v => v.Matches rules.methods w.graph) ?_ hschedule
      (ready_begun w) hbegun hprocessed
    intro seen id v v' hid hturn hv
    obtain ⟨marks', hlandmarks⟩ := hmarks.of_reaches ((hmem id).mp hid)
    exact matches_of_turn hturn hlandmarks hv
  -- The root has one sequence of landmarks only, so that of its image is the one given.
  obtain ⟨marks', hold, himage⟩ := hmatches root image hanswer
  rw [hmarks.unique hold]
  exact himage

end Rules

/-- A run keeps the landmarks of its root.  If the root is sound, and no method of the standard
    table is called below it with more than one argument, then the answer of a run, read from left
    to right, shows the same landmarks in the same order as the root does: the same leaves other
    than integers, by their very identifiers, and between them the same arithmetic and the same
    calls. -/
theorem simplify_keeps_landmarks (w : Workspace) (root : NodeId) (hsound : w.graph.Sound root)
    (hnarrow : ∀ id node, w.graph.Reaches root id → w.graph.node id = .ok node →
      node.kind.Narrow .standard) :
    ∃ occurrences, w.graph.Preorder [root] occurrences ∧
      ∀ (config : Config) (r : NodeId) (w' : Workspace),
        simplify config root w = .ok (.ok r) w' →
        ∃ occurrences', w'.graph.Preorder [r] occurrences' ∧
          landmarks .standard occurrences' = landmarks .standard occurrences := by
  obtain ⟨t, hroot⟩ := Graph.exists_unfolds_iff.mpr hsound
  obtain ⟨marks, hlandmarks⟩ := hroot.exists_hasLandmarks hnarrow
  have ⟨occurrences, hread, _, hmarks⟩ := hlandmarks
  refine ⟨occurrences, hread, fun config r w' hrun => ?_⟩
  cases hstored : w.graph.contains root with
  | false =>
      rw [simplify_of_unknown hstored] at hrun
      cases hrun
  | true =>
      have hrunMarks := simplify_induct
        (motive := fun r v => (∃ t, v.graph.Unfolds r t) ∧ v.graph.HasLandmarks .standard [r] marks)
        ?_ hstored ⟨⟨t, hroot⟩, hlandmarks⟩ hrun
      · obtain ⟨r', ⟨-, occurrences', hread', -, hmarks'⟩, hanswer | ⟨hanswer, -⟩⟩ := hrunMarks
        · cases hanswer
          exact ⟨occurrences', hread', hmarks'.trans hmarks.symm⟩
        · cases hanswer
      · rintro number root image v v' hpass ⟨⟨s, hs⟩, hv⟩
        exact ⟨⟨_, ((Rules.ends_pass_rewrites hs number).of_ok hpass).term⟩,
          Rules.hasLandmarks_of_pass hs hv hpass⟩

/-- The answer of a run on `0 eq a.equals(b)` is `a ne b`, with the very arguments that were
    compared. -/
theorem simplify_keeps_landmarks_sample :
    Graph.equalsSample.Sound ⟨4⟩ ∧
      (∀ id node, Graph.equalsSample.Reaches ⟨4⟩ id → Graph.equalsSample.node id = .ok node →
        node.kind.Narrow .standard) ∧
      ∃ w', simplify ⟨.all, 3, true⟩ ⟨4⟩ (.ofGraph .equalsSample) = .ok (.ok ⟨7⟩) w' ∧
        ∃ occurrences, w'.graph.Preorder [⟨7⟩] occurrences ∧
          landmarks .standard occurrences
            = [.leaf ⟨0⟩ (.arg 0) .string, .leaf ⟨1⟩ (.arg 1) .string] := by
  have hsound : Graph.equalsSample.Sound ⟨4⟩ :=
    Graph.exists_unfolds_iff.mp ⟨_, Graph.equalsSample_unfolds⟩
  have hnarrow : ∀ id node, Graph.equalsSample.Reaches ⟨4⟩ id →
      Graph.equalsSample.node id = .ok node → node.kind.Narrow .standard := by
    intro id node _ hnode
    have hstored := Array.mem_of_getElem? (Graph.node_eq_ok_iff.mp hnode)
    simp only [Graph.equalsSample, List.mem_toArray, List.mem_cons, List.not_mem_nil,
      or_false] at hstored
    -- The only call has one argument.
    rcases hstored with rfl | rfl | rfl | rfl | rfl
    · trivial
    · trivial
    · exact fun _ => Nat.le_refl 1
    · trivial
    · trivial
  obtain ⟨occurrences, hread, hrun⟩ :=
    simplify_keeps_landmarks (.ofGraph .equalsSample) ⟨4⟩ hsound hnarrow
  obtain ⟨occurrences', hread', hmarks⟩ := hrun ⟨.all, 3, true⟩ ⟨7⟩ _ rfl
  refine ⟨hsound, hnarrow, _, rfl, occurrences', hread', ?_⟩
  have hfirst : Graph.equalsSample.Preorder [⟨4⟩]
      [⟨⟨4⟩, .comparison .eq ⟨3⟩ ⟨2⟩⟩, ⟨⟨3⟩, .int 0⟩,
        ⟨⟨2⟩, ⟨.virtualCall .stringEquals ⟨0⟩ ⟨0, 1⟩, .boolean⟩⟩,
        ⟨⟨0⟩, ⟨.leaf (.arg 0), .string⟩⟩, ⟨⟨1⟩, ⟨.leaf (.arg 1), .string⟩⟩] :=
    .cons rfl rfl (.cons rfl rfl .nil (.cons rfl rfl
      (.cons rfl rfl .nil (.cons rfl rfl .nil .nil)) .nil)) .nil
  rw [hmarks, hread.unique hfirst]
  rfl

end ValueGraph
