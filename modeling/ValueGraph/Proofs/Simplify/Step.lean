/-
  ValueGraph.Proofs.Simplify.Step

  What a pass does with one node, once the operands of the node are finished:
  it rebuilds the node over their images, applies the rules to the result, and
  keeps what comes out as the image of the node (`Rules.process`).

  `Rules.Processed` lists everything that such a step can do, and a step that
  does not end in a fault does nothing else (`processed_of_ok`).  What a pass
  preserves is shown by cases on it.
-/
import ValueGraph.Proofs.Rule.Firing
import ValueGraph.Proofs.Simplify.Ends

namespace ValueGraph

open ValueGraph.Graph (Extends)

/-- The image of a finished node. -/
def knownImage (id : NodeId) : Simplify NodeId := do
  match ← Workspace.image? id with
  | some image => return image
  | none => throw .cyclic

namespace Rules

/-- Processes a node whose operands are finished, and finishes it. -/
def process (rules : Rules) (id : NodeId) : Simplify Unit := do
  let renewed ← overImages knownImage id
  let image ← rules.apply renewed
  Workspace.finish id image

end Rules

/-! ## What a step does -/

namespace Graph

/-- From `g` to `h` nothing is stored but, if need be, an argument list, and the span then reads as
    that list. -/
structure Lists (g h : Graph) (args : List NodeId) (span : Span) : Prop where
  reads : h.args span = .ok args
  grown : h = g ∨ h = g.addEntries args

/-- A kind over other operands, with what has to be stored for it. -/
inductive Rebuilds (g : Graph) : Kind → List NodeId → Kind → Graph → Prop
  | leaf {value : Leaf} : g.Rebuilds (.leaf value) [] (.leaf value) g
  | comparison {op : RelOp} {left right left' right' : NodeId} :
      g.Rebuilds (.comparison op left right) [left', right'] (.comparison op left' right') g
  | arithmetic {op : ArithOp} {left right left' right' : NodeId} :
      g.Rebuilds (.arithmetic op left right) [left', right'] (.arithmetic op left' right') g
  | negation {operand operand' : NodeId} :
      g.Rebuilds (.negation operand) [operand'] (.negation operand') g
  | virtualCall {sig : Signature} {receiver receiver' : NodeId} {span span' : Span}
      {args : List NodeId} {h : Graph} :
      args.length = span.size → g.Lists h args span' →
      g.Rebuilds (.virtualCall sig receiver span) (receiver' :: args)
        (.virtualCall sig receiver' span') h
  | staticCall {sig : Signature} {span span' : Span} {args : List NodeId} {h : Graph} :
      args.length = span.size → g.Lists h args span' →
      g.Rebuilds (.staticCall sig span) args (.staticCall sig span') h

/-- The node over other operands: itself if they are its own, and else a new node. -/
inductive Renews (g : Graph) (id : NodeId) (node : Node) (news : List NodeId) :
    NodeId → Graph → Prop
  | same {h : Graph} : g.Rebuilds node.kind news node.kind h → g.Renews id node news id h
  | fresh {kind : Kind} {h : Graph} :
      kind ≠ node.kind → g.Rebuilds node.kind news kind h → h.size < UInt32.size →
      g.Renews id node news ⟨.ofNat h.size⟩ (h.addNode ⟨kind, node.ty⟩)

/-- The identifier of a replacement, once it is stored. -/
inductive Places (g : Graph) : Replacement → NodeId → Graph → Prop
  | stored {x : NodeId} : g.Places (.stored x) x g
  | fresh {node : Node} :
      g.size < UInt32.size → g.Places (.fresh node) ⟨.ofNat g.size⟩ (g.addNode node)

end Graph

namespace Rules

/-- The rules leave a node as it is, or one of them replaces it, which is counted and reported. -/
inductive Applied (rules : Rules) (w : Workspace) (id : NodeId) : NodeId → Workspace → Prop
  | none : w.graph.nodeRule rules.methods rules.groups id = .ok .none → rules.Applied w id id w
  | some {node : Node} {firing : Firing} {image : NodeId} {h : Graph} :
      w.graph.node id = .ok node → w.graph.Fires rules node.kind firing →
      w.graph.Places firing.replacement image h →
      rules.Applied w id image
        ⟨h, w.images, w.replaced + 1, w.log.push (.replaced firing.rule id image)⟩

/-- All that processing a node can do. -/
inductive Processed (rules : Rules) (id : NodeId) (w : Workspace) : Workspace → Prop
  | intro {node : Node} {ids news : List NodeId} {renewed image : NodeId} {g : Graph}
      {w' : Workspace} :
      w.graph.node id = .ok node → w.graph.operandIds node.kind = .ok ids →
      List.Forall₂ (fun old new => w.images[old]? = .some new) ids news →
      w.graph.Renews id node news renewed g →
      rules.Applied { w with graph := g } renewed image w' →
      rules.Processed id w { w' with images := w'.images.insert id image }

end Rules

/-! ## Steps that answer -/

section Answers

variable {α : Type} {w w' : Workspace}

theorem view_eq_ok {read : Graph → Except Fault α} {a : α}
    (h : Workspace.view read w = .ok a w') : read w.graph = .ok a ∧ w' = w := by
  rw [Workspace.view] at h
  split at h
  case h_1 b hread =>
    cases h
    exact ⟨hread, rfl⟩
  case h_2 => cases h

theorem knownImage_eq_ok {id image : NodeId} (h : knownImage id w = .ok image w') :
    w.images[id]? = some image ∧ w' = w := by
  obtain ⟨found, w₁, hfound, h₁⟩ := exists_of_bind_eq_ok h
  cases hfound
  cases hstored : w.images[id]? with
  | none =>
      rw [hstored] at h₁
      cases h₁
  | some new =>
      rw [hstored] at h₁
      cases h₁
      exact ⟨rfl, rfl⟩

/-- What follows the images of two operands goes on from where it begins. -/
theorem knownImage_pair_eq_ok {left right : NodeId} {f : NodeId → NodeId → Simplify α} {a : α}
    (h : (knownImage left >>= fun l => knownImage right >>= f l) w = .ok a w') :
    ∃ l r, w.images[left]? = some l ∧ w.images[right]? = some r ∧ f l r w = .ok a w' := by
  obtain ⟨l, w₁, hleft, h₁⟩ := exists_of_bind_eq_ok h
  obtain ⟨hl, rfl⟩ := knownImage_eq_ok hleft
  obtain ⟨r, w₂, hright, h₂⟩ := exists_of_bind_eq_ok h₁
  obtain ⟨hr, rfl⟩ := knownImage_eq_ok hright
  exact ⟨l, r, hl, hr, h₂⟩

theorem imagesOf_knownImage_eq_ok {ids news : List NodeId}
    (h : imagesOf knownImage ids w = .ok news w') :
    List.Forall₂ (fun old new => w.images[old]? = some new) ids news ∧ w' = w := by
  induction ids generalizing news w' with
  | nil => cases h; exact ⟨.nil, rfl⟩
  | cons first rest ih =>
      obtain ⟨new, w₁, hfirst, h₁⟩ := exists_of_bind_eq_ok h
      obtain ⟨hnew, rfl⟩ := knownImage_eq_ok hfirst
      obtain ⟨news, w₂, hrest, h₂⟩ := exists_of_bind_eq_ok h₁
      obtain ⟨hnews, rfl⟩ := ih hrest
      cases h₂
      exact ⟨.cons hnew hnews, rfl⟩

end Answers

section Operands

variable {w w' : Workspace}

theorem imageOfArgs_knownImage_eq_ok {span span' : Span}
    (h : imageOfArgs knownImage span w = .ok span' w') :
    ∃ ids news, w.graph.args span = .ok ids ∧
      List.Forall₂ (fun old new => w.images[old]? = some new) ids news ∧
      w.graph.Lists w'.graph news span' ∧ w' = { w with graph := w'.graph } := by
  obtain ⟨ids, w₁, hview, h₁⟩ := exists_of_bind_eq_ok h
  obtain ⟨hargs, rfl⟩ := view_eq_ok hview
  obtain ⟨news, w₂, himages, h₂⟩ := exists_of_bind_eq_ok h₁
  obtain ⟨hnews, rfl⟩ := imagesOf_knownImage_eq_ok himages
  refine ⟨ids, news, hargs, hnews, ?_⟩
  by_cases hsame : news = ids
  · rw [if_pos hsame] at h₂
    cases h₂
    exact ⟨⟨hsame ▸ hargs, Or.inl rfl⟩, rfl⟩
  · rw [if_neg hsame] at h₂
    -- The new list is as long as one that has been read, so it is not too long for a span.
    have hshort : news.length < UInt16.size := by
      rw [← hnews.length_eq]
      exact Graph.length_lt_of_args hargs
    obtain ⟨hreads, rfl⟩ := (ends_pushArgs hshort).of_ok h₂
    exact ⟨⟨hreads, Or.inr rfl⟩, rfl⟩

theorem imageOfKind_knownImage_eq_ok {kind kind' : Kind}
    (h : imageOfKind knownImage kind w = .ok kind' w') :
    ∃ ids news, w.graph.operandIds kind = .ok ids ∧
      List.Forall₂ (fun old new => w.images[old]? = some new) ids news ∧
      w.graph.Rebuilds kind news kind' w'.graph ∧ w' = { w with graph := w'.graph } := by
  cases kind with
  | leaf value =>
      cases h
      exact ⟨[], [], rfl, .nil, .leaf, rfl⟩
  | comparison op left right =>
      obtain ⟨left', right', hl, hr, hrun⟩ := knownImage_pair_eq_ok h
      cases hrun
      exact ⟨_, _, rfl, .cons hl (.cons hr .nil), .comparison, rfl⟩
  | arithmetic op left right =>
      obtain ⟨left', right', hl, hr, hrun⟩ := knownImage_pair_eq_ok h
      cases hrun
      exact ⟨_, _, rfl, .cons hl (.cons hr .nil), .arithmetic, rfl⟩
  | negation operand =>
      obtain ⟨operand', w₁, hoperand, h₁⟩ := exists_of_bind_eq_ok h
      obtain ⟨ho, rfl⟩ := knownImage_eq_ok hoperand
      cases h₁
      exact ⟨_, _, rfl, .cons ho .nil, .negation, rfl⟩
  | virtualCall sig receiver span =>
      obtain ⟨receiver', w₁, hreceiver, h₁⟩ := exists_of_bind_eq_ok h
      obtain ⟨hr, rfl⟩ := knownImage_eq_ok hreceiver
      obtain ⟨span', w₂, hspan, h₂⟩ := exists_of_bind_eq_ok h₁
      obtain ⟨ids, news, hargs, hnews, hlists, hw⟩ := imageOfArgs_knownImage_eq_ok hspan
      cases h₂
      refine ⟨receiver :: ids, receiver' :: news, ?_, .cons hr hnews, ?_, hw⟩
      · rw [Graph.operandIds, hargs]
        rfl
      · exact .virtualCall (hnews.length_eq.symm.trans (Graph.length_of_args hargs)) hlists
  | staticCall sig span =>
      obtain ⟨span', w₂, hspan, h₁⟩ := exists_of_bind_eq_ok h
      obtain ⟨ids, news, hargs, hnews, hlists, hw⟩ := imageOfArgs_knownImage_eq_ok hspan
      cases h₁
      exact ⟨ids, news, hargs, hnews,
        .staticCall (hnews.length_eq.symm.trans (Graph.length_of_args hargs)) hlists, hw⟩

theorem overImages_knownImage_eq_ok {id renewed : NodeId}
    (h : overImages knownImage id w = .ok renewed w') :
    ∃ node ids news, w.graph.node id = .ok node ∧ w.graph.operandIds node.kind = .ok ids ∧
      List.Forall₂ (fun old new => w.images[old]? = some new) ids news ∧
      w.graph.Renews id node news renewed w'.graph ∧ w' = { w with graph := w'.graph } := by
  obtain ⟨node, w₁, hview, h₁⟩ := exists_of_bind_eq_ok h
  obtain ⟨hread, rfl⟩ := view_eq_ok hview
  obtain ⟨kind, w₂, hkind, h₂⟩ := exists_of_bind_eq_ok h₁
  obtain ⟨ids, news, hids, hnews, hrebuilds, hw⟩ := imageOfKind_knownImage_eq_ok hkind
  refine ⟨node, ids, news, hread, hids, hnews, ?_⟩
  by_cases hsame : kind = node.kind
  · rw [if_pos hsame] at h₂
    cases h₂
    rw [hsame] at hrebuilds
    exact ⟨.same hrebuilds, hw⟩
  · rw [if_neg hsame] at h₂
    obtain ⟨hroom, rfl, rfl⟩ := (ends_push _).of_ok h₂
    exact ⟨.fresh hsame hrebuilds hroom, by rw [hw]⟩

end Operands

namespace Rules

variable {rules : Rules} {w w' : Workspace}

theorem applied_of_ok {id image : NodeId} (h : rules.apply id w = .ok image w') :
    rules.Applied w id image w' := by
  obtain ⟨answer, w₁, hview, h₁⟩ := exists_of_bind_eq_ok h
  obtain ⟨hrule, rfl⟩ := view_eq_ok hview
  cases answer with
  | none =>
      cases h₁
      exact .none hrule
  | some firing =>
      -- A rule that fires has read the node first.
      obtain ⟨node, hread, -⟩ := Graph.bind_eq_ok hrule
      have hfires := Graph.fires_of_nodeRule hread hrule
      obtain ⟨target, w₂, hplace, h₂⟩ := exists_of_bind_eq_ok h₁
      obtain ⟨name, replacement⟩ := firing
      cases replacement with
      | stored x =>
          cases hplace
          cases h₂
          exact .some hread hfires .stored
      | fresh new =>
          obtain ⟨hroom, rfl, rfl⟩ := (ends_push new).of_ok hplace
          cases h₂
          exact .some hread hfires (.fresh hroom)

/-- Processing a node does what `Processed` lists, unless it ends in a fault. -/
theorem processed_of_ok {id : NodeId} (h : rules.process id w = .ok () w') :
    rules.Processed id w w' := by
  obtain ⟨renewed, w₁, hrenewed, h₁⟩ := exists_of_bind_eq_ok h
  obtain ⟨node, ids, news, hread, hids, hnews, hrenews, hw⟩ := overImages_knownImage_eq_ok hrenewed
  obtain ⟨image, w₂, happly, h₂⟩ := exists_of_bind_eq_ok h₁
  cases h₂
  have happlied := applied_of_ok happly
  rw [hw] at happlied
  exact .intro hread hids hnews hrenews happlied

end Rules

/-! ## What a step leaves as it was -/

namespace Graph

variable {g h : Graph} {id renewed : NodeId} {node : Node} {kind kind' : Kind}
  {ids news : List NodeId}

theorem size_entries_addEntries (g : Graph) (ids : List NodeId) :
    (g.addEntries ids).entries.size = g.entries.size + ids.length := by
  have htoList : (g.addEntries ids).entries.toList = g.entries.toList ++ ids :=
    Array.toList_appendList
  rw [← Array.length_toList, htoList, List.length_append, Array.length_toList]

theorem Lists.extends {args : List NodeId} {span : Span} (hlists : g.Lists h args span) :
    Extends g h := by
  rcases hlists.grown with rfl | rfl
  · exact .refl _
  · exact .addEntries g args

theorem Rebuilds.extends (hrebuilds : g.Rebuilds kind news kind' h) : Extends g h := by
  cases hrebuilds with
  | leaf | comparison | arithmetic | negation => exact .refl g
  | virtualCall _ hlists | staticCall _ hlists => exact hlists.extends

theorem Rebuilds.operandIds (hrebuilds : g.Rebuilds kind news kind' h) :
    h.operandIds kind' = .ok news := by
  cases hrebuilds with
  | leaf | comparison | arithmetic | negation => rfl
  | virtualCall _ hlists => rw [Graph.operandIds, hlists.reads]; rfl
  | staticCall _ hlists => exact hlists.reads

theorem Renews.extends (hrenews : g.Renews id node news renewed h) : Extends g h := by
  cases hrenews with
  | same hrebuilds => exact hrebuilds.extends
  | fresh _ hrebuilds _ => exact hrebuilds.extends.trans (.addNode _ _)

theorem Places.extends {replacement : Replacement} {image : NodeId}
    (hplaces : g.Places replacement image h) : Extends g h := by
  cases hplaces with
  | stored => exact .refl g
  | fresh => exact .addNode g _

/-- A node over other operands is stored with its type, and with its kind over these operands. -/
theorem Renews.exists_node (hrenews : g.Renews id node news renewed h)
    (hread : g.node id = .ok node) :
    ∃ kind h', h.node renewed = .ok ⟨kind, node.ty⟩ ∧ g.Rebuilds node.kind news kind h' ∧
      h.operandIds kind = .ok news := by
  cases hrenews with
  | same hrebuilds =>
      exact ⟨_, _, hrebuilds.extends.node_eq_ok hread, hrebuilds, hrebuilds.operandIds⟩
  | @fresh kind h _ hrebuilds hroom =>
      have hids := operandIds_mono (.addNode h ⟨kind, node.ty⟩) hrebuilds.operandIds
      exact ⟨_, _, node_addNode hroom _, hrebuilds, hids⟩

/-- A node over other operands is stored with these. -/
theorem Renews.children_eq (hrenews : g.Renews id node news renewed h)
    (hread : g.node id = .ok node) : h.children renewed = .ok news := by
  obtain ⟨kind, _, hread', -, hids⟩ := hrenews.exists_node hread
  exact (children_of_node hread').trans hids

end Graph

namespace Rules

variable {rules : Rules} {w w' : Workspace} {id image : NodeId}

theorem Applied.extends (h : rules.Applied w id image w') : Extends w.graph w'.graph := by
  cases h with
  | none => exact .refl _
  | some _ _ hplaces => exact hplaces.extends

theorem Applied.images_eq (h : rules.Applied w id image w') : w'.images = w.images := by
  cases h with
  | none => rfl
  | some => rfl

/-- A processed node is finished, and no other image has changed. -/
theorem Processed.images_eq (h : rules.Processed id w w') :
    ∃ image, w'.images = w.images.insert id image := by
  obtain ⟨-, -, -, -, happlied⟩ := h
  exact ⟨_, by rw [happlied.images_eq]⟩

theorem Processed.extends (h : rules.Processed id w w') : Extends w.graph w'.graph := by
  obtain ⟨-, -, -, hrenews, happlied⟩ := h
  exact hrenews.extends.trans happlied.extends

end Rules

end ValueGraph
