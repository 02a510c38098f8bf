/-
  ValueGraph.Proofs.Simplify.Separation

  A pass replaces no node twice, and never replaces what it has put in the place
  of a node.

  An identifier appears in a pass when it becomes an image or is replaced.  The
  invariant is `Workspace.Separated`: what is replaced is replaced once and is
  nobody's image; what is put in its place is an image; and every image has been
  stored in the pass, or is a node that is its own image.  The node that a step
  puts over the images is either the one whose turn it is or the one that is
  stored last, and neither has appeared before (`Separated.not_appears`).  A step
  therefore finishes a node (`Separated.finish`) and then at most reports that
  node as replaced (`Separated.record`).

  A rule applies to comparisons and to calls on a receiver alone, and the node
  over the images is of the same shape as the node itself, so there are no more
  replacements than reachable nodes of these two shapes.
-/
import Mathlib.Algebra.BigOperators.Group.Finset.Piecewise
import ValueGraph.Proofs.Simplify.Report
import ValueGraph.Proofs.Simplify.Sharing

namespace ValueGraph

open ValueGraph.Graph (Extends)

/-- The nodes that are replaced. -/
def Rewrite.sources (rewrites : List Rewrite) : List NodeId := rewrites.map source

/-- The nodes that are put in their place. -/
def Rewrite.targets (rewrites : List Rewrite) : List NodeId := rewrites.map target

/-! ## The invariant -/

namespace Workspace

/-- The identifier is an image, or it has been replaced. -/
def Appears (rewrites : List Rewrite) (w : Workspace) (x : NodeId) : Prop :=
  w.HasImage x ∨ x ∈ Rewrite.sources rewrites

/-- What a pass over `g` knows of its replacements and its images so far. -/
structure Separated (g : Graph) (seen : Set NodeId) (rewrites : List Rewrite) (w : Workspace) :
    Prop where
  nodup : (Rewrite.sources rewrites).Nodup
  disjoint : ∀ x ∈ Rewrite.sources rewrites, ¬ w.HasImage x
  targets : ∀ x ∈ Rewrite.targets rewrites, w.HasImage x
  stored : ∀ x, w.Appears rewrites x → x.index < w.graph.size
  sources : ∀ x ∈ Rewrite.sources rewrites, x ∈ seen ∨ g.size ≤ x.index
  images : ∀ x, w.HasImage x → w.images[x]? = some x ∨ g.size ≤ x.index

variable {g : Graph} {seen : Set NodeId} {rewrites : List Rewrite} {w w' : Workspace}
  {id image x : NodeId}

theorem separated_begun (w : Workspace) :
    Separated w.graph ∅ [] { w with images := ∅, replaced := 0 } := by
  have hnone : ∀ x, ¬ HasImage { w with images := ∅, replaced := 0 } x := by
    rintro x ⟨id, hid⟩
    exact Rules.not_finished_begun w id x hid
  constructor
  case nodup => exact List.nodup_nil
  case disjoint => exact nofun
  case targets => exact nofun
  case stored => exact fun x hx => absurd (hx.resolve_right nofun) (hnone x)
  case sources => exact nofun
  case images => exact fun x hx => absurd hx (hnone x)

/-- A node whose turn has not come has not appeared, and neither has one that is not stored yet. -/
theorem Separated.not_appears (hw : w.Separated g seen rewrites) (hready : w.Ready g seen)
    (hx : x ∉ seen ∧ x.index < g.size ∨ w.graph.size ≤ x.index) : ¬ w.Appears rewrites x := by
  intro happears
  rcases hx with ⟨hfresh, hold⟩ | hnew
  · rcases happears with himage | hsource
    · rcases hw.images x himage with hself | hlate
      · exact hfresh ((hready.finished x).mp ⟨x, hself⟩)
      · omega
    · rcases hw.sources x hsource with hseen | hlate
      · exact hfresh hseen
      · omega
  · have hstored := hw.stored x happears
    omega

theorem hasImage_insert (himages : w'.images = w.images.insert id image)
    (hid : w.images[id]? = none) : w'.HasImage x ↔ x = image ∨ w.HasImage x := by
  rw [HasImage, himages]
  constructor
  · have hall : ∀ other x : NodeId, (w.images.insert id image)[other]? = some x →
        x = image ∨ w.HasImage x :=
      forall_insert_images (Or.inl rfl) fun other x hold => Or.inr ⟨other, hold⟩
    rintro ⟨other, hother⟩
    exact hall other x hother
  · rintro (rfl | ⟨other, hother⟩)
    · exact ⟨id, by rw [getElem?_insert_images, if_pos rfl]⟩
    · exact ⟨other, getElem?_insert_of_missing hid hother⟩

/-- What may become the image of `id`: it has not been replaced, and unless it is `id` or its own
    image, it has been stored in the pass. -/
structure Admits (g : Graph) (rewrites : List Rewrite) (w : Workspace) (id image : NodeId) :
    Prop where
  not_source : image ∉ Rewrite.sources rewrites
  kept : image = id ∨ w.images[image]? = some image ∨ g.size ≤ image.index

theorem Separated.admits_image (hw : w.Separated g seen rewrites) (himage : w.HasImage image) :
    w.Admits g rewrites id image where
  not_source hsource := hw.disjoint image hsource himage
  kept := Or.inr (hw.images image himage)

theorem admits_of_not_appears (hnot : ¬ w.Appears rewrites image)
    (hplace : image = id ∨ g.size ≤ image.index) : w.Admits g rewrites id image where
  not_source hsource := hnot (Or.inr hsource)
  kept := hplace.imp_right Or.inr

/-- A node is finished. -/
theorem Separated.finish (hw : w.Separated g seen rewrites) (hid : w.images[id]? = none)
    (hadmits : w.Admits g rewrites id image) (himages : w'.images = w.images.insert id image)
    (hgrown : w.graph.size ≤ w'.graph.size) (hstored : image.index < w'.graph.size) :
    w'.Separated g (insert id seen) rewrites := by
  have hhas : ∀ x, w'.HasImage x ↔ x = image ∨ w.HasImage x := fun x => hasImage_insert himages hid
  have hkept : ∀ x : NodeId, w.images[x]? = some x → w'.images[x]? = some x := by
    intro x hx
    rw [himages]
    exact getElem?_insert_of_missing hid hx
  constructor
  case nodup => exact hw.nodup
  case disjoint =>
    intro x hx hhasImage
    rcases (hhas x).mp hhasImage with rfl | hold
    · exact hadmits.not_source hx
    · exact hw.disjoint x hx hold
  case targets => exact fun x hx => (hhas x).mpr (Or.inr (hw.targets x hx))
  case stored =>
    rintro x (hhasImage | hx)
    · rcases (hhas x).mp hhasImage with rfl | hold
      · exact hstored
      · exact Nat.lt_of_lt_of_le (hw.stored x (Or.inl hold)) hgrown
    · exact Nat.lt_of_lt_of_le (hw.stored x (Or.inr hx)) hgrown
  case sources =>
    exact fun x hx => (hw.sources x hx).imp_left (Set.mem_insert_of_mem id)
  case images =>
    -- A new image that is not new to the pass is the node itself, or was its own image before.
    intro x hhasImage
    rcases (hhas x).mp hhasImage with rfl | hold
    · rcases hadmits.kept with rfl | hself | hlate
      · exact Or.inl (by rw [himages, getElem?_insert_images, if_pos rfl])
      · exact Or.inl (hkept x hself)
      · exact Or.inr hlate
    · exact (hw.images x hold).imp_left (hkept x)

/-- A node that has not appeared yet is reported as replaced by an image. -/
theorem Separated.record (hw : w.Separated g seen rewrites) (rewrite : Rewrite)
    (hsource : ¬ w.Appears rewrites rewrite.source) (htarget : w.HasImage rewrite.target)
    (hstored : rewrite.source.index < w.graph.size)
    (hplace : rewrite.source ∈ seen ∨ g.size ≤ rewrite.source.index) :
    w.Separated g seen (rewrites ++ [rewrite]) := by
  have hsources : Rewrite.sources (rewrites ++ [rewrite])
      = Rewrite.sources rewrites ++ [rewrite.source] := List.map_append
  have hmem : ∀ x, x ∈ Rewrite.sources (rewrites ++ [rewrite]) →
      x ∈ Rewrite.sources rewrites ∨ x = rewrite.source := by
    intro x hx
    rw [hsources, List.mem_append, List.mem_singleton] at hx
    exact hx
  constructor
  case nodup =>
    rw [hsources, ← List.concat_eq_append]
    exact hw.nodup.concat fun hx => hsource (Or.inr hx)
  case disjoint =>
    intro x hx hhasImage
    rcases hmem x hx with hold | rfl
    · exact hw.disjoint x hold hhasImage
    · exact hsource (Or.inl hhasImage)
  case targets =>
    intro x hx
    rw [Rewrite.targets, List.map_append, List.mem_append] at hx
    rcases hx with hold | hnew
    · exact hw.targets x hold
    · cases List.mem_singleton.mp hnew
      exact htarget
  case stored =>
    rintro x (hhasImage | hx)
    · exact hw.stored x (Or.inl hhasImage)
    · rcases hmem x hx with hold | rfl
      · exact hw.stored x (Or.inr hold)
      · exact hstored
  case sources =>
    intro x hx
    rcases hmem x hx with hold | rfl
    · exact hw.sources x hold
    · exact hplace
  case images => exact hw.images

/-- A node is finished, after the node over the images has been replaced. -/
theorem Separated.replace (hw : w.Separated g seen rewrites) (hid : w.images[id]? = none)
    (rewrite : Rewrite) (hsource : ¬ w.Appears rewrites rewrite.source)
    (hplace : rewrite.source = id ∨ g.size ≤ rewrite.source.index)
    (hadmits : w.Admits g rewrites id rewrite.target) (hne : rewrite.source ≠ rewrite.target)
    (himages : w'.images = w.images.insert id rewrite.target)
    (hgrown : w.graph.size ≤ w'.graph.size) (hstored : rewrite.source.index < w'.graph.size)
    (hstored' : rewrite.target.index < w'.graph.size) :
    w'.Separated g (insert id seen) (rewrites ++ [rewrite]) := by
  have hfinished := hw.finish hid hadmits himages hgrown hstored'
  have hhas : ∀ x, w'.HasImage x ↔ x = rewrite.target ∨ w.HasImage x := fun x =>
    hasImage_insert himages hid
  apply hfinished.record rewrite
  · rintro (hnew | hold)
    · rcases (hhas _).mp hnew with hsame | hbefore
      · exact hne hsame
      · exact hsource (Or.inl hbefore)
    · exact hsource (Or.inr hold)
  · exact (hhas _).mpr (Or.inl rfl)
  · exact hstored
  · rcases hplace with hsame | hlate
    · exact Or.inl (hsame ▸ Set.mem_insert id seen)
    · exact Or.inr hlate

end Workspace

/-! ## What a step preserves -/

namespace Graph

variable {g h : Graph} {id renewed image : NodeId} {node : Node} {ids news : List NodeId}
  {replacement : Replacement}

/-- The node over other operands is the node itself, or it is stored last. -/
theorem Renews.cases_id (hrenews : g.Renews id node news renewed h) :
    renewed = id ∧ h.size = g.size ∨ renewed.index = g.size ∧ h.size = g.size + 1 := by
  cases hrenews with
  | same hrebuilds => exact Or.inl ⟨rfl, hrebuilds.size_eq⟩
  | fresh _ hrebuilds hroom =>
      refine Or.inr ⟨?_, ?_⟩
      · rw [index_ofNat hroom, hrebuilds.size_eq]
      · rw [size_addNode, hrebuilds.size_eq]

/-- What is put in the place of a node is one of its operands, or it is stored last. -/
theorem Places.cases_exposed (hplaces : g.Places replacement image h)
    (hexposes : g.Exposes ids replacement) :
    image ∈ ids ∧ h.size = g.size ∨ image.index = g.size ∧ h.size = g.size + 1 := by
  cases hplaces with
  | stored =>
      cases hexposes with
      | stored hmem => exact Or.inl ⟨hmem, rfl⟩
  | fresh hroom => exact Or.inr ⟨index_ofNat hroom, size_addNode g _⟩

end Graph

namespace Rules

variable {rules : Rules} {g h : Graph} {seen : Set NodeId} {w w' w₁ : Workspace}
  {id root image renewed : NodeId} {node : Node} {order news : List NodeId} {number : Nat}
  {log : Array Event} {rewrites : List Rewrite}

theorem Turn.missing (hturn : rules.Turn g seen id w w') : w.images[id]? = none :=
  hturn.ready.missing hturn.fresh

theorem Turn.index_lt (hturn : rules.Turn g seen id w w') : id.index < g.size := by
  obtain ⟨node, hread, -⟩ := hturn.exists_node
  exact Graph.index_lt_of_node hread

/-- The node over the images has not appeared yet: its turn had not come, or it is new. -/
theorem Turn.renewed_not_appears (hturn : rules.Turn g seen id w w')
    (hw : w.Separated g seen rewrites) (hrenews : w.graph.Renews id node news renewed h) :
    ¬ w.Appears rewrites renewed ∧ (renewed = id ∨ g.size ≤ renewed.index) ∧
      renewed.index < h.size := by
  have hgrown := hturn.ready.grown.size_le
  have hold := hturn.index_lt
  rcases hrenews.cases_id with ⟨rfl, hsize⟩ | ⟨hlast, hsize⟩
  · exact ⟨hw.not_appears hturn.ready (Or.inl ⟨hturn.fresh, hold⟩), Or.inl rfl, by omega⟩
  · exact ⟨hw.not_appears hturn.ready (Or.inr hlast.ge), Or.inr (by omega), by omega⟩

/-- What a rule puts in the place of the node over the images may become an image: it is one
    already, or it is stored behind that node. -/
theorem Turn.admits_placed {h' : Graph} {ids : List NodeId} {replacement : Replacement}
    (hturn : rules.Turn g seen id w w') (hw : w.Separated g seen rewrites)
    (hsize : w.graph.size ≤ h.size)
    (hnews : List.Forall₂ (fun old new => w.images[old]? = some new) ids news)
    (hexposes : h.Exposes news replacement) (hplaces : h.Places replacement image h')
    (hnot : ¬ w.Appears rewrites renewed) (hstored : renewed.index < h.size) :
    w.Admits g rewrites id image ∧ renewed ≠ image ∧ image.index < h'.size := by
  have hgrown := hturn.ready.grown.size_le
  rcases hplaces.cases_exposed hexposes with ⟨hin, hsame⟩ | ⟨hlast, hone⟩
  · -- The rule keeps an operand, which is an image already.
    obtain ⟨old, -, hfound⟩ := exists_of_mem_forall₂ hnews hin
    have himage : w.HasImage image := ⟨old, hfound⟩
    have hlt := hw.stored image (Or.inl himage)
    refine ⟨hw.admits_image himage, ?_, by omega⟩
    rintro rfl
    exact hnot (Or.inl himage)
  · -- The rule makes a node, which is stored behind the node over the images.
    have hnew : ¬ w.Appears rewrites image := hw.not_appears hturn.ready (Or.inr (by omega))
    refine ⟨Workspace.admits_of_not_appears hnew (Or.inr (by omega)), ?_, by omega⟩
    rintro rfl
    omega

/-- A step leaves what is replaced apart from what is put in its place. -/
theorem Turn.separated (hturn : rules.Turn g seen id w w') (hw : w.Separated g seen rewrites)
    (hreports : w.Reports log rewrites) :
    ∃ rewrites', w'.Reports log rewrites' ∧ w'.Separated g (insert id seen) rewrites' := by
  cases hturn.processed with
  | @intro node ids news renewed image h _ hnode hids hnews hrenews happlied =>
      have hsize : w.graph.size ≤ h.size := hrenews.extends.size_le
      obtain ⟨hnot, hplace, hstored⟩ := hturn.renewed_not_appears hw hrenews
      cases happlied with
      | none =>
          refine ⟨rewrites, ⟨hreports.log_eq, hreports.replaced_eq⟩, ?_⟩
          have hadmits : w.Admits g rewrites id renewed :=
            Workspace.admits_of_not_appears hnot hplace
          exact hw.finish hturn.missing hadmits rfl hsize hstored
      | @some node' firing _ h' hread hfires hplaces =>
          have hsize' : h.size ≤ h'.size := hplaces.extends.size_le
          have hchildren := hrenews.children_eq hnode
          have hexposes := hfires.exposes ((Graph.children_of_node hread).symm.trans hchildren)
          obtain ⟨hadmits, hne, hlt⟩ :=
            hturn.admits_placed hw hsize hnews hexposes hplaces hnot hstored
          let rewrite : Rewrite := ⟨firing.rule, renewed, image⟩
          refine ⟨_, hreports.record rewrite h' (w.images.insert id image), ?_⟩
          exact hw.replace hturn.missing rewrite hnot hplace hadmits hne rfl
            (Nat.le_trans hsize hsize') (Nat.lt_of_lt_of_le hstored hsize') hlt

/-- What a pass replaces is apart from what it puts in its place. -/
theorem Walked.separated (hwalked : rules.Walked number root w order image w₁ w') :
    ∃ rewrites seen, w₁.Reports w.log rewrites ∧ w₁.Separated w.graph seen rewrites := by
  have hdone : ∃ rewrites, w₁.Reports w.log rewrites ∧
      w₁.Separated w.graph (Graph.after ∅ order) rewrites := by
    refine processAll_induct (motive := fun seen v => ∃ rewrites, v.Reports w.log rewrites ∧
      v.Separated w.graph seen rewrites) ?_ hwalked.schedule (ready_begun w) ?_ hwalked.processed
    · rintro seen id v v' - hturn ⟨rewrites, hreports, hv⟩
      exact hturn.separated hv hreports
    · exact ⟨[], .none w, Workspace.separated_begun w⟩
  obtain ⟨rewrites, hreports, hseparated⟩ := hdone
  exact ⟨rewrites, _, hreports, hseparated⟩

end Rules

/-! ## How much is replaced -/

/-- Whether a rule may apply to such a node: to comparisons and to calls on a receiver. -/
def Kind.isRewritable : Kind → Bool
  | .comparison .. | .virtualCall .. => true
  | _ => false

namespace Graph

/-- Whether a rule may apply to the node stored under an identifier. -/
def isRewritable (g : Graph) (id : NodeId) : Bool :=
  match g.node id with
  | .ok node => node.kind.isRewritable
  | .error _ => false

/-- The comparisons and the calls on a receiver that a root reaches. -/
noncomputable def rewritable (g : Graph) (root : NodeId) : Finset NodeId :=
  (g.reached root).filter (g.isRewritable ·)

variable {g h : Graph} {rules : Rules} {id renewed : NodeId} {node node' : Node}
  {kind kind' : Kind} {news : List NodeId} {firing : Firing}

theorem isRewritable_of_node (hnode : g.node id = .ok node) :
    g.isRewritable id = node.kind.isRewritable := by
  rw [isRewritable, hnode]

theorem Fires.isRewritable (hfires : g.Fires rules kind firing) : kind.isRewritable = true := by
  cases hfires <;> rfl

theorem Rebuilds.isRewritable_eq (hrebuilds : g.Rebuilds kind news kind' h) :
    kind'.isRewritable = kind.isRewritable := by
  cases hrebuilds <;> rfl

/-- A node over other operands is of the same shape. -/
theorem Renews.isRewritable_eq (hrenews : g.Renews id node news renewed h)
    (hnode : g.node id = .ok node) : h.isRewritable renewed = g.isRewritable id := by
  obtain ⟨kind, _, hread, hrebuilds, -⟩ := hrenews.exists_node hnode
  rw [isRewritable_of_node hnode, isRewritable_of_node hread, hrebuilds.isRewritable_eq]

end Graph

namespace Rules

variable {rules : Rules} {g : Graph} {seen : Set NodeId} {w w' w₁ : Workspace}
  {id root image : NodeId} {order : List NodeId} {number : Nat}

theorem Turn.isRewritable_eq (hturn : rules.Turn g seen id w w') :
    w.graph.isRewritable id = g.isRewritable id := by
  obtain ⟨node, hread, hread'⟩ := hturn.exists_node
  rw [Graph.isRewritable_of_node hread, Graph.isRewritable_of_node hread']

/-- A step replaces at most one node, and none unless a rule may apply to the node. -/
theorem Turn.replaced_le (hturn : rules.Turn g seen id w w') :
    w'.replaced ≤ w.replaced + if g.isRewritable id then 1 else 0 := by
  rw [← hturn.isRewritable_eq]
  cases hturn.processed with
  | @intro node ids news renewed image h _ hnode _ _ hrenews happlied =>
      cases happlied with
      | none => exact Nat.le_add_right _ _
      | some hread hfires _ =>
          have hrewritable : w.graph.isRewritable id = true := by
            rw [← hrenews.isRewritable_eq hnode, Graph.isRewritable_of_node hread]
            exact hfires.isRewritable
          rw [if_pos hrewritable]

/-- A pass replaces at most as many nodes as the root reaches comparisons and calls on a
    receiver. -/
theorem Walked.replaced_le (hwalked : rules.Walked number root w order image w₁ w') :
    w₁.replaced ≤ (w.graph.rewritable root).card := by
  have hcost := Walked.cost_le (·.replaced) (fun id => if w.graph.isRewritable id then 1 else 0)
    hwalked fun seen id v v' hturn => hturn.replaced_le
  rw [Nat.zero_add] at hcost
  rw [Graph.rewritable, Finset.card_filter]
  exact hcost

end Rules

/-! ## A whole pass -/

/-- No node is replaced twice in a pass, and what has been put in the place of a node is not
    replaced in its turn.  From a sound root, with any rules, the replacements that a pass reports
    are of different nodes, and there are no more of them than the root reaches comparisons and
    calls on a receiver; no node is replaced in one of them and put in the place of a node in
    another.  What the pass keeps as the image of a node has been stored in the pass, or was stored
    before and is its own image.  Only a full graph can stop the pass. -/
theorem pass_separates (rules : Rules) (number : Nat) (w : Workspace) (root : NodeId)
    (hsound : w.graph.Sound root) :
    Ends (rules.pass number root) w
      (fun _ w' => ∃ report : PassReport, report.number = number ∧
        w'.log.toList = w.log.toList ++ report.events ∧
        (Rewrite.sources report.rewrites).Nodup ∧
        report.rewrites.length ≤ (w.graph.rewritable root).card ∧
        (Rewrite.sources report.rewrites).Disjoint (Rewrite.targets report.rewrites) ∧
        ∀ id image : NodeId, w'.images[id]? = some image →
          w.graph.size ≤ image.index ∧ image.index < w'.graph.size ∨
            image.index < w.graph.size ∧ w'.images[image]? = some image)
      (·.graph.Full) := by
  obtain ⟨t, hroot⟩ := Graph.exists_unfolds_iff.mpr hsound
  rcases Rules.ends_pass hroot number with ⟨image, w', hrun, -⟩ | hfault
  · refine Or.inl ⟨image, w', hrun, ?_⟩
    obtain ⟨order, w₁, hwalked⟩ := Rules.exists_walked hroot hrun
    obtain ⟨rewrites, seen, hreports, hw⟩ := hwalked.separated
    refine ⟨⟨number, rewrites, w₁.graph.size - w.graph.size⟩, rfl, hwalked.log_eq hreports,
      hw.nodup, ?_, ?_, ?_⟩
    · show rewrites.length ≤ _
      rw [← hreports.replaced_eq]
      exact hwalked.replaced_le
    · exact fun x hsource htarget => hw.disjoint x hsource (hw.targets x htarget)
    · have hlast := hwalked.last
      subst hlast
      intro id new hfound
      have himage : w₁.HasImage new := ⟨id, hfound⟩
      have hstored : new.index < w₁.graph.size := hw.stored new (Or.inl himage)
      by_cases hlate : w.graph.size ≤ new.index
      · exact Or.inl ⟨hlate, hstored⟩
      · exact Or.inr ⟨Nat.lt_of_not_le hlate, (hw.images new himage).resolve_right hlate⟩
  · exact Or.inr hfault

/-- The pass over the small graph replaces a node of the graph and then a node that it has stored
    itself, by one of the graph and by one that it has stored. -/
theorem pass_separates_sample :
    Graph.sample.Sound ⟨3⟩ ∧
      ∃ w', Rules.pass ⟨.standard, .all⟩ 1 ⟨3⟩ (.ofGraph .sample) = .ok ⟨5⟩ w' ∧
        w'.log.toList = [.replaced .comparison ⟨2⟩ ⟨0⟩, .replaced .comparison ⟨4⟩ ⟨5⟩,
          .passed 1 2 2] ∧
        ∀ id image : NodeId, w'.images[id]? = some image →
          4 ≤ image.index ∧ image.index < 6 ∨ image.index < 4 ∧ w'.images[image]? = some image := by
  have hends := pass_separates ⟨.standard, .all⟩ 1 (.ofGraph .sample) ⟨3⟩ Graph.sample_sound
  obtain ⟨report, -, -, -, -, -, himages⟩ := hends.of_ok (a := ⟨5⟩) rfl
  exact ⟨Graph.sample_sound, _, rfl, rfl, himages⟩

end ValueGraph
