/-
  ValueGraph.Proofs.Simplify.Sharing

  Sharing is never lost, and a pass is linear in the number of distinct nodes.

  A pass processes every node that its root reaches once (`exists_pass_eq`), and
  processing a node stores at most two nodes, and at most one list, as long as
  that of the node.  So what a pass stores is bounded by a sum over the nodes
  that the root reaches (`Walked.cost_le`).

  The operands of an image are images: this is `Workspace.Closed`, and a step
  preserves it, since what a rule puts in the place of a node names nothing but
  operands of the node and operands of these.  All that the answer of a pass
  reaches are therefore images, and there are no more of these than nodes that
  the root reaches; so the bound for the first pass of a run holds for all of
  them.
-/
import Mathlib.Algebra.BigOperators.Group.Finset.Basic
import Mathlib.Data.Set.Finite.Basic
import ValueGraph.Proofs.Simplify.Induction
import ValueGraph.Proofs.Simplify.Run
import ValueGraph.Proofs.Simplify.Schedule

namespace ValueGraph

open ValueGraph.Graph (Extends after mem_after)

/-- The number of arguments of a call; any other kind has none. -/
def Kind.argumentCount : Kind → Nat
  | .virtualCall _ _ span | .staticCall _ span => span.size
  | _ => 0

/-! ## What a step stores -/

namespace Graph

/-- The nodes that a root reaches. -/
noncomputable def reached (g : Graph) (root : NodeId) : Finset NodeId :=
  (Set.toFinite {id | g.Reaches root id}).toFinset

/-- The number of arguments of a stored call; any other node has none. -/
def argumentCount (g : Graph) (id : NodeId) : Nat :=
  match g.node id with
  | .ok node => node.kind.argumentCount
  | .error _ => 0

variable {g h : Graph} {root id renewed image : NodeId} {node : Node} {kind kind' : Kind}
  {ids news : List NodeId} {replacement : Replacement}

theorem mem_reached : id ∈ g.reached root ↔ g.Reaches root id := Set.Finite.mem_toFinset _

theorem argumentCount_of_node (hnode : g.node id = .ok node) :
    g.argumentCount id = node.kind.argumentCount := by
  rw [argumentCount, hnode]

theorem Rebuilds.size_eq (hrebuilds : g.Rebuilds kind news kind' h) : h.size = g.size := by
  cases hrebuilds with
  | leaf | comparison | arithmetic | negation => rfl
  | virtualCall _ hlists | staticCall _ hlists => rcases hlists.grown with rfl | rfl <;> rfl

theorem Renews.size_le (hrenews : g.Renews id node news renewed h) : h.size ≤ g.size + 1 := by
  cases hrenews with
  | same hrebuilds => rw [hrebuilds.size_eq]; exact Nat.le_succ _
  | fresh _ hrebuilds _ => rw [size_addNode, hrebuilds.size_eq]

theorem Places.size_le (hplaces : g.Places replacement image h) : h.size ≤ g.size + 1 := by
  cases hplaces with
  | stored => exact Nat.le_succ _
  | fresh => rw [size_addNode]

theorem Lists.entries_le {args : List NodeId} {span : Span} (hlists : g.Lists h args span) :
    h.entries.size ≤ g.entries.size + args.length := by
  rcases hlists.grown with rfl | rfl
  · exact Nat.le_add_right _ _
  · rw [size_entries_addEntries]

theorem Rebuilds.entries_le (hrebuilds : g.Rebuilds kind news kind' h) :
    h.entries.size ≤ g.entries.size + kind.argumentCount := by
  cases hrebuilds with
  | leaf | comparison | arithmetic | negation => exact Nat.le_add_right _ _
  | virtualCall hlength hlists | staticCall hlength hlists =>
      rw [Kind.argumentCount, ← hlength]
      exact hlists.entries_le

theorem Renews.entries_le (hrenews : g.Renews id node news renewed h) :
    h.entries.size ≤ g.entries.size + node.kind.argumentCount := by
  cases hrenews with
  | same hrebuilds => exact hrebuilds.entries_le
  | fresh _ hrebuilds _ => exact hrebuilds.entries_le

theorem Places.entries_eq (hplaces : g.Places replacement image h) : h.entries = g.entries := by
  cases hplaces with
  | stored => rfl
  | fresh => rfl

end Graph

/-- Whether an event says that a pass is over. -/
def Event.isPassed : Event → Bool
  | .passed .. => true
  | .started .. | .replaced .. => false

/-- The number of passes that have been reported. -/
def Workspace.passCount (w : Workspace) : Nat := w.log.countP Event.isPassed

/-- A node is the image of some finished node. -/
def Workspace.HasImage (w : Workspace) (x : NodeId) : Prop := ∃ id : NodeId, w.images[id]? = some x

/-- The operands of images are images. -/
def Workspace.Closed (w : Workspace) : Prop :=
  ∀ x, w.HasImage x → ∃ ids, w.graph.children x = .ok ids ∧ ∀ child ∈ ids, w.HasImage child

theorem Workspace.Closed.reaches {w : Workspace} (hw : w.Closed) {x y : NodeId}
    (hx : w.HasImage x) (hreach : w.graph.Reaches x y) : w.HasImage y := by
  induction hreach with
  | refl => exact hx
  | tail _ hchild ih =>
      obtain ⟨ids, hids, hall⟩ := hw _ ih
      obtain ⟨ids', hids', hmem⟩ := hchild
      cases hids'.symm.trans hids
      exact hall _ hmem

namespace Rules

variable {rules : Rules} {g : Graph} {seen : Set NodeId} {w w' w₁ : Workspace}
  {id root image renewed : NodeId} {order ids news : List NodeId} {number : Nat}

theorem Applied.size_le (happlied : rules.Applied w renewed image w') :
    w'.graph.size ≤ w.graph.size + 1 := by
  cases happlied with
  | none => exact Nat.le_succ _
  | some _ _ hplaces => exact hplaces.size_le

theorem Applied.entries_eq (happlied : rules.Applied w renewed image w') :
    w'.graph.entries = w.graph.entries := by
  cases happlied with
  | none => rfl
  | some _ _ hplaces => exact hplaces.entries_eq

theorem Applied.passCount_eq (happlied : rules.Applied w renewed image w') :
    w'.passCount = w.passCount := by
  cases happlied with
  | none => rfl
  | some => exact Array.countP_push_of_neg Bool.false_ne_true

/-- Processing a node stores at most two nodes: the node over the images, and what a rule puts in
    its place. -/
theorem Processed.size_le (hprocessed : rules.Processed id w w') :
    w'.graph.size ≤ w.graph.size + 2 := by
  obtain ⟨-, -, -, hrenews, happlied⟩ := hprocessed
  have hrenewed := hrenews.size_le
  have himage := happlied.size_le
  simp only at himage ⊢
  omega

/-- Processing a node stores at most as many arguments as the node has. -/
theorem Processed.entries_le (hprocessed : rules.Processed id w w') :
    w'.graph.entries.size ≤ w.graph.entries.size + w.graph.argumentCount id := by
  obtain ⟨hnode, -, -, hrenews, happlied⟩ := hprocessed
  simp only [happlied.entries_eq, Graph.argumentCount_of_node hnode]
  exact hrenews.entries_le

theorem Processed.passCount_eq (hprocessed : rules.Processed id w w') :
    w'.passCount = w.passCount := by
  obtain ⟨-, -, -, -, happlied⟩ := hprocessed
  exact happlied.passCount_eq

/-- What the steps of a pass add up to, if each adds no more than its node is charged. -/
theorem Walked.cost_le (cost : Workspace → Nat) (charge : NodeId → Nat)
    (hwalked : rules.Walked number root w order image w₁ w')
    (hcost : ∀ seen id v v', rules.Turn w.graph seen id v v' → cost v' ≤ cost v + charge id) :
    cost w₁ ≤ cost { w with images := ∅, replaced := 0 }
      + ∑ id ∈ w.graph.reached root, charge id := by
  -- What has been stored so far is bounded by the sum over the finished nodes.
  let bound : Set NodeId → Workspace → Prop := fun seen v =>
    cost v ≤ cost { w with images := ∅, replaced := 0 }
      + ∑ id ∈ (Set.toFinite seen).toFinset, charge id
  have hstep : ∀ seen id v v', id ∈ order → rules.Turn w.graph seen id v v' → bound seen v →
      bound (insert id seen) v' := by
    intro seen id v v' _ hturn hbound
    have hadded := hcost seen id v v' hturn
    have hfresh : id ∉ (Set.toFinite seen).toFinset := by
      rw [Set.Finite.mem_toFinset]
      exact hturn.fresh
    simp only [bound] at hbound ⊢
    rw [Set.Finite.toFinset_insert, Finset.sum_insert hfresh]
    omega
  have hbegun : bound ∅ { w with images := ∅, replaced := 0 } := Nat.le_add_right _ _
  have hdone : bound (after ∅ order) w₁ :=
    processAll_induct hstep hwalked.schedule (ready_begun w) hbegun hwalked.processed
  have hall : after ∅ order = {id | w.graph.Reaches root id} := by
    ext id
    rw [mem_after, Set.mem_ofPred_eq, hwalked.mem_iff]
    exact or_iff_right (Set.notMem_empty id)
  rw [hall] at hdone
  exact hdone

/-! ## Images over images -/

/-- What comes out of the rules for a node over images has images as operands. -/
theorem Applied.children_image {P : NodeId → Prop}
    (happlied : rules.Applied w renewed image w') (hids : w.graph.children renewed = .ok news)
    (hnews : ∀ x ∈ news, P x)
    (hclosed : ∀ x ∈ news, ∃ ids, w.graph.children x = .ok ids ∧ ∀ child ∈ ids, P child) :
    ∃ ids, w'.graph.children image = .ok ids ∧ ∀ child ∈ ids, P child := by
  cases happlied with
  | none => exact ⟨news, hids, hnews⟩
  | @some node firing _ h hnode hfires hplaces =>
      have hexposes := hfires.exposes ((Graph.children_of_node hnode).symm.trans hids)
      generalize firing.replacement = replacement at hexposes hplaces
      cases hexposes with
      | stored hx =>
          cases hplaces with
          | stored => exact hclosed _ hx
      | @fresh new news' hids' hmem =>
          cases hplaces with
          | fresh hroom =>
              have hgrown := Extends.addNode w.graph new
              refine ⟨news', ?_, fun child hchild => ?_⟩
              · rw [Graph.children_of_node (Graph.node_addNode hroom new)]
                exact Graph.operandIds_mono hgrown hids'
              · -- An operand of the node is an image, and so is an operand of one.
                rcases hmem child hchild with hown | ⟨x, hx, below, hbelow, hin⟩
                · exact hnews child hown
                · obtain ⟨ids, hids, hall⟩ := hclosed x hx
                  cases hbelow.symm.trans hids
                  exact hall child hin

/-- A processed node has an image whose operands are images. -/
theorem Processed.children_image {P : NodeId → Prop} (hprocessed : rules.Processed id w w')
    (hw : w.Closed) (hP : ∀ x, w.HasImage x → P x) :
    ∃ image, w'.images = w.images.insert id image ∧
      ∃ ids, w'.graph.children image = .ok ids ∧ ∀ child ∈ ids, P child := by
  cases hprocessed with
  | @intro node ids news renewed image g w' hnode _ hnews hrenews happlied =>
      have himages : ∀ x ∈ news, w.HasImage x := by
        intro x hx
        obtain ⟨old, -, hold⟩ := exists_of_mem_forall₂ hnews hx
        exact ⟨old, hold⟩
      refine ⟨image, by rw [happlied.images_eq], ?_⟩
      have hrenewed := hrenews.children_eq hnode
      refine happlied.children_image hrenewed (fun x hx => hP x (himages x hx)) fun x hx => ?_
      obtain ⟨ids, hids, hall⟩ := hw x (himages x hx)
      exact ⟨ids, Graph.children_mono hrenews.extends hids,
        fun child hchild => hP child (hall child hchild)⟩

theorem closed_of_turn (hturn : rules.Turn g seen id w w') (hw : w.Closed) : w'.Closed := by
  have hlater := hturn.processed.later hturn.ready hturn.fresh
  have hkept : ∀ x, w.HasImage x → w'.HasImage x := by
    rintro x ⟨other, hother⟩
    exact ⟨other, hlater.images other x hother⟩
  obtain ⟨image, himages, hchildren⟩ := hturn.processed.children_image hw hkept
  have hall : ∀ other x : NodeId, (w.images.insert id image)[other]? = some x →
      ∃ ids, w'.graph.children x = .ok ids ∧ ∀ child ∈ ids, w'.HasImage child := by
    refine forall_insert_images hchildren fun other x hother => ?_
    obtain ⟨ids, hids, hbelow⟩ := hw x ⟨other, hother⟩
    exact ⟨ids, Graph.children_mono hlater.grown hids,
      fun child hchild => hkept child (hbelow child hchild)⟩
  rintro x ⟨other, hother⟩
  rw [himages] at hother
  exact hall other x hother

/-! ## Passes and runs -/

/-- What is shared stays shared in a pass from `root`, and the pass stores no more than a bounded
    number of nodes and arguments for each node that the root reaches. -/
structure Shares (root : NodeId) (w : Workspace) (image : NodeId) (w' : Workspace) : Prop where
  finished : ∀ id, (∃ new, w'.images[id]? = some new) ↔ w.graph.Reaches root id
  size_le : w'.graph.size ≤ w.graph.size + 2 * (w.graph.reached root).card
  entries_le : w'.graph.entries.size
    ≤ w.graph.entries.size + ∑ id ∈ w.graph.reached root, w.graph.argumentCount id
  images : ∀ new, w'.graph.Reaches image new →
    ∃ id, w.graph.Reaches root id ∧ w'.images[id]? = some new
  card_le : (w'.graph.reached image).card ≤ (w.graph.reached root).card

theorem Walked.finished_iff (hwalked : rules.Walked number root w order image w₁ w') (id : NodeId) :
    (∃ new, w₁.images[id]? = some new) ↔ w.graph.Reaches root id := by
  have hready := ready_of_processAll hwalked.schedule (ready_begun w) hwalked.processed
  rw [hready.finished, mem_after, hwalked.mem_iff]
  exact or_iff_right (Set.notMem_empty id)

theorem Walked.closed (hwalked : rules.Walked number root w order image w₁ w') : w₁.Closed := by
  refine processAll_induct (motive := fun _ v => v.Closed) ?_ hwalked.schedule (ready_begun w) ?_
    hwalked.processed
  · exact fun seen id v v' _ hturn hv => closed_of_turn hturn hv
  · rintro x ⟨id, hid⟩
    exact absurd hid (not_finished_begun w id x)

/-- A node has the same number of arguments whenever its turn comes. -/
theorem Turn.argumentCount_eq (hturn : rules.Turn g seen id w w') :
    w.graph.argumentCount id = g.argumentCount id := by
  obtain ⟨node, hread, hread'⟩ := hturn.exists_node
  rw [Graph.argumentCount_of_node hread, Graph.argumentCount_of_node hread']

theorem Walked.size_le (hwalked : rules.Walked number root w order image w₁ w') :
    w₁.graph.size ≤ w.graph.size + 2 * (w.graph.reached root).card := by
  have hcost := Walked.cost_le (·.graph.size) (fun _ => 2) hwalked
    fun seen id v v' hturn => hturn.processed.size_le
  rw [Finset.sum_const_nat fun _ _ => rfl, Nat.mul_comm] at hcost
  exact hcost

theorem Walked.entries_le (hwalked : rules.Walked number root w order image w₁ w') :
    w₁.graph.entries.size
      ≤ w.graph.entries.size + ∑ id ∈ w.graph.reached root, w.graph.argumentCount id := by
  refine Walked.cost_le (·.graph.entries.size) w.graph.argumentCount hwalked ?_
  intro seen id v v' hturn
  rw [← hturn.argumentCount_eq]
  exact hturn.processed.entries_le

/-- All that the answer of a pass reaches are images of nodes that the root reaches. -/
theorem Walked.exists_image (hwalked : rules.Walked number root w order image w₁ w') {new : NodeId}
    (hreach : w₁.graph.Reaches image new) :
    ∃ id, w.graph.Reaches root id ∧ w₁.images[id]? = some new := by
  obtain ⟨id, hid⟩ := hwalked.closed.reaches ⟨root, hwalked.answer⟩ hreach
  exact ⟨id, (hwalked.finished_iff id).mp ⟨new, hid⟩, hid⟩

/-- No two nodes have to share an image, but no node has two. -/
theorem Walked.card_le (hwalked : rules.Walked number root w order image w₁ w') :
    (w₁.graph.reached image).card ≤ (w.graph.reached root).card := by
  let imageOf : NodeId → NodeId := fun id => (w₁.images[id]?).getD id
  have hsubset : w₁.graph.reached image ⊆ (w.graph.reached root).image imageOf := by
    intro new hnew
    obtain ⟨id, hid, hfound⟩ := hwalked.exists_image (Graph.mem_reached.mp hnew)
    refine Finset.mem_image.mpr ⟨id, Graph.mem_reached.mpr hid, ?_⟩
    simp only [imageOf, hfound, Option.getD_some]
  exact (Finset.card_le_card hsubset).trans Finset.card_image_le

theorem Walked.shares (hwalked : rules.Walked number root w order image w₁ w') :
    Shares root w image w' := by
  have hlast := hwalked.last
  subst hlast
  exact ⟨hwalked.finished_iff, hwalked.size_le, hwalked.entries_le,
    fun _ => hwalked.exists_image, hwalked.card_le⟩

/-- The end of a pass is reported, and that of no other is reported in it. -/
theorem Walked.passCount_eq (hwalked : rules.Walked number root w order image w₁ w') :
    w'.passCount = w.passCount + 1 := by
  have hcount : w₁.passCount = w.passCount := by
    refine processAll_induct (motive := fun _ v => v.passCount = w.passCount) ?_
      hwalked.schedule (ready_begun w) rfl hwalked.processed
    exact fun seen id v v' _ hturn hv => hturn.processed.passCount_eq.trans hv
  have hlast := hwalked.last
  subst hlast
  rw [← hcount]
  exact Array.countP_push_of_pos rfl

theorem ends_pass_shares {t : Term} (hroot : w.graph.Unfolds root t) (rules : Rules)
    (number : Nat) : Ends (rules.pass number root) w (Shares root w) (·.graph.Full) := by
  rcases ends_pass hroot number with ⟨image, w', hrun, -⟩ | hfault
  · obtain ⟨order, w₁, hwalked⟩ := exists_walked hroot hrun
    exact Or.inl ⟨image, w', hrun, hwalked.shares⟩
  · exact Or.inr hfault

end Rules

/-- What a run has done from `root` so far, after some number of passes. -/
structure Spent (root : NodeId) (w : Workspace) (r : NodeId) (v : Workspace) : Prop where
  term : ∃ t, v.graph.Unfolds r t
  card_le : (v.graph.reached r).card ≤ (w.graph.reached root).card
  size_le : ∃ m, v.passCount = w.passCount + m ∧
    v.graph.size ≤ w.graph.size + 2 * (w.graph.reached root).card * m

theorem Spent.pass {root r image : NodeId} {w v v' : Workspace} {rules : Rules} {number : Nat}
    (h : Spent root w r v) (hpass : rules.pass number r v = .ok image v') :
    Spent root w image v' := by
  obtain ⟨⟨t, hr⟩, hcard, m, hcount, hsize⟩ := h
  obtain ⟨order, v₁, hwalked⟩ := Rules.exists_walked hr hpass
  obtain ⟨-, hadded, -, -, hfewer⟩ := hwalked.shares
  refine ⟨⟨_, ((Rules.ends_pass_rewrites hr number).of_ok hpass).term⟩, hfewer.trans hcard,
    m + 1, ?_, ?_⟩
  · rw [hwalked.passCount_eq, hcount]
    rfl
  · calc v'.graph.size
        ≤ v.graph.size + 2 * (v.graph.reached r).card := hadded
      _ ≤ v.graph.size + 2 * (w.graph.reached root).card := by omega
      _ ≤ w.graph.size + 2 * (w.graph.reached root).card * (m + 1) := by
          rw [Nat.mul_succ]
          omega

theorem spent_of_simplify {config : Config} {w w' : Workspace} {root : NodeId} {t : Term}
    {answer : Except RunError NodeId} (hroot : w.graph.Unfolds root t)
    (hrun : simplify config root w = .ok answer w') : ∃ r, Spent root w r w' := by
  have hstart : Spent root w root (w.started config root) := by
    refine ⟨⟨t, hroot⟩, Nat.le_refl _, 0, ?_, Nat.le_refl _⟩
    exact Array.countP_push_of_neg Bool.false_ne_true
  cases hstored : w.graph.contains root with
  | false =>
      rw [simplify_of_unknown hstored] at hrun
      cases hrun
      exact ⟨root, hstart⟩
  | true =>
      obtain ⟨r, hspent, -⟩ := simplify_induct (motive := Spent root w)
        (fun number r image v v' hpass h => h.pass hpass) hstored hstart hrun
      exact ⟨r, hspent⟩

/-- Sharing is never lost, and passes are linear.  From a sound root that reaches `N` nodes,
    however a pass is watched, it is equal to processing exactly these nodes in some order, each of
    them once.  At its end exactly these are finished; it has stored at most `2 * N` nodes, and no
    more arguments than these nodes have; and all that its answer reaches are images of these
    nodes, so that it reaches at most `N` nodes.  Only a full graph can stop it.  A run that does
    `m` passes therefore stores at most `2 * N * m` nodes. -/
theorem pass_shares (w : Workspace) (root : NodeId) (hsound : w.graph.Sound root) :
    (∀ (rules : Rules) (watch : NodeId → List Event) (number : Nat),
      ∃ order : List NodeId, order.Nodup ∧ (∀ id, id ∈ order ↔ w.graph.Reaches root id) ∧
        rules.watchedPass watch number root w = rules.passInOrder watch order number root w) ∧
    (∀ (rules : Rules) (number : Nat),
      Ends (rules.pass number root) w (Rules.Shares root w) (·.graph.Full)) ∧
    (∀ (config : Config) (answer : Except RunError NodeId) (w' : Workspace),
      simplify config root w = .ok answer w' →
      ∃ m, w'.passCount = w.passCount + m ∧
        w'.graph.size ≤ w.graph.size + 2 * (w.graph.reached root).card * m) := by
  obtain ⟨t, hroot⟩ := Graph.exists_unfolds_iff.mpr hsound
  refine ⟨fun rules watch number => ?_, ?_, fun config answer w' hrun => ?_⟩
  · obtain ⟨order, hschedule, hmem, heq⟩ := Rules.exists_pass_eq rules watch hroot number
    exact ⟨order, hschedule.nodup, hmem, heq⟩
  · exact fun rules number => Rules.ends_pass_shares hroot rules number
  · obtain ⟨r, hspent⟩ := spent_of_simplify hroot hrun
    exact hspent.size_le

/-- The run on the small graph does two passes, of which the second one changes nothing; the node
    that both comparisons share is processed once in each. -/
theorem pass_shares_sample :
    Graph.sample.Sound ⟨3⟩ ∧
      (∃ order : List NodeId, order.Nodup ∧ ⟨1⟩ ∈ order ∧
        Rules.pass ⟨.standard, .all⟩ 1 ⟨3⟩ (.ofGraph .sample)
          = Rules.passInOrder ⟨.standard, .all⟩ Rules.silent order 1 ⟨3⟩ (.ofGraph .sample)) ∧
      ∃ w', simplify ⟨.all, 3, true⟩ ⟨3⟩ (.ofGraph .sample) = .ok (.ok ⟨5⟩) w' ∧
        w'.passCount = 2 ∧ w'.graph.size ≤ 4 + 2 * (Graph.sample.reached ⟨3⟩).card * 2 := by
  obtain ⟨hwatched, -, hrun⟩ := pass_shares (.ofGraph .sample) ⟨3⟩ Graph.sample_sound
  obtain ⟨order, hnodup, hmem, heq⟩ := hwatched ⟨.standard, .all⟩ Rules.silent 1
  have hshared : Graph.sample.IsOperand ⟨3⟩ ⟨1⟩ := ⟨[⟨2⟩, ⟨1⟩], rfl, by decide⟩
  obtain ⟨m, hcount, hsize⟩ := hrun ⟨.all, 3, true⟩ (.ok ⟨5⟩) _ rfl
  have hm : m = 2 := by
    rw [← Nat.zero_add m]
    exact hcount.symm
  subst hm
  rw [Rules.watchedPass_silent] at heq
  exact ⟨Graph.sample_sound, ⟨order, hnodup, (hmem ⟨1⟩).mpr hshared.reaches, heq⟩,
    _, rfl, hcount, hsize⟩

end ValueGraph
