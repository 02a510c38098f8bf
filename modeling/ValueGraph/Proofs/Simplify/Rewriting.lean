/-
  ValueGraph.Proofs.Simplify.Rewriting

  A pass over a shared graph computes the rewriting of terms.

  The invariant is `Rules.Tracks`: the graph has only grown since the pass
  began, and every image that the pass keeps stands for the rewritten term of
  the node whose image it is.  Each step of a pass preserves it and adds what the
  step answers (`Rules.Advances`); the induction is on the term that a node
  stands for, so shared nodes and nodes that are met again need no case of their
  own (`ends_imageOf`).  A pass from a sound root then ends in the image of the
  root, unless the graph becomes full (`ends_pass`).
-/
import ValueGraph.Proofs.Rule.Agreement
import ValueGraph.Proofs.Simplify.Ends

namespace ValueGraph

open ValueGraph.Graph (Extends Full)

namespace Graph

/-- A node that is stored behind all others stands for what it spells. -/
theorem Spells.unfolds_addNode {g : Graph} {node : Node} {t : Term} (h : g.Spells node t)
    (hroom : g.size < UInt32.size) : (g.addNode node).Unfolds ⟨.ofNat g.size⟩ t :=
  .stored (node_addNode hroom node) (h.mono (Extends.addNode g node))

end Graph

namespace Rules

/-- What a pass over `g` knows of its images so far. -/
structure Tracks (rules : Rules) (g : Graph) (w : Workspace) : Prop where
  grown : Extends g w.graph
  images : ∀ id image, w.images[id]? = some image →
    ∃ t, g.Unfolds id t ∧ w.graph.Unfolds image (rules.rewrite t)

/-- A step from `w` keeps what a pass over `g` knows, and answers as `post` says. -/
def Advances {α : Type} (rules : Rules) (g : Graph) (w : Workspace) (post : Graph → α → Prop)
    (a : α) (w' : Workspace) : Prop :=
  rules.Tracks g w' ∧ Extends w.graph w'.graph ∧ post w'.graph a

/-- Taking the image of `id` answers a node that stands for the rewritten `t`. -/
def Renders (rules : Rules) (g : Graph) (image : NodeId → Simplify NodeId) (id : NodeId)
    (t : Term) : Prop :=
  ∀ w, rules.Tracks g w →
    Ends (image id) w (rules.Advances g w fun h new => h.Unfolds new (rules.rewrite t))
      (·.graph.Full)

variable {rules : Rules} {g : Graph} {w w' : Workspace} {image : NodeId → Simplify NodeId}

/-- What is known of the images stays true while the graph grows. -/
theorem Tracks.mono (h : rules.Tracks g w) (hgrown : Extends w.graph w'.graph)
    (himages : w'.images = w.images) : rules.Tracks g w' where
  grown := h.grown.trans hgrown
  images id image hfound := by
    rw [himages] at hfound
    obtain ⟨t, hid, himage⟩ := h.images id image hfound
    exact ⟨t, hid, himage.mono hgrown⟩

theorem Tracks.finish (h : rules.Tracks g w) {id image : NodeId} {t : Term}
    (hid : g.Unfolds id t) (himage : w.graph.Unfolds image (rules.rewrite t)) :
    rules.Tracks g { w with images := w.images.insert id image } where
  grown := h.grown
  images := forall_insert_images ⟨t, hid, himage⟩ h.images

/-! ## The images of operands -/

theorem ends_imagesOf {ids : List NodeId} {ts : List Term}
    (himage : List.Forall₂ (rules.Renders g image) ids ts) (hw : rules.Tracks g w) :
    Ends (imagesOf image ids) w
      (rules.Advances g w fun h new => List.Forall₂ h.Unfolds new (ts.map rules.rewrite))
      (·.graph.Full) := by
  induction himage generalizing w with
  | nil => exact Ends.pure ⟨hw, .refl _, .nil⟩
  | cons hfirst _ ih =>
      refine (hfirst w hw).bind ?_
      rintro first w₁ ⟨hw₁, hgrown₁, hfirst⟩
      refine (ih hw₁).bind ?_
      rintro rest w₂ ⟨hw₂, hgrown₂, hrest⟩
      exact Ends.pure ⟨hw₂, hgrown₁.trans hgrown₂, .cons (hfirst.mono hgrown₂) hrest⟩

/-- The images of two operands, put together by `f`. -/
theorem ends_imagesOfPair {α : Type} {left right : NodeId} {l r : Term}
    (f : NodeId → NodeId → α) {post : Graph → α → Prop}
    (hleft : rules.Renders g image left l) (hright : rules.Renders g image right r)
    (hpost : ∀ h a b, h.Unfolds a (rules.rewrite l) → h.Unfolds b (rules.rewrite r) →
      post h (f a b))
    (hw : rules.Tracks g w) :
    Ends (do return f (← image left) (← image right)) w (rules.Advances g w post)
      (·.graph.Full) := by
  refine (hleft w hw).bind ?_
  rintro a w₁ ⟨hw₁, hgrown₁, ha⟩
  refine (hright w₁ hw₁).bind ?_
  rintro b w₂ ⟨hw₂, hgrown₂, hb⟩
  -- What the left image stands for is not changed by taking the right one.
  have hpair := hpost w₂.graph a b (ha.mono hgrown₂) hb
  exact Ends.pure ⟨hw₂, hgrown₁.trans hgrown₂, hpair⟩

theorem ends_imageOfArgs {span : Span} {ids : List NodeId} {ts : List Term}
    (hargs : g.args span = .ok ids) (himage : List.Forall₂ (rules.Renders g image) ids ts)
    (hw : rules.Tracks g w) :
    Ends (imageOfArgs image span) w
      (rules.Advances g w fun h new => ∃ news, h.args new = .ok news ∧
        List.Forall₂ h.Unfolds news (ts.map rules.rewrite))
      (·.graph.Full) := by
  refine (Ends.view (hw.grown.args_eq_ok hargs)).bind ?_
  rintro old _ ⟨rfl, rfl⟩
  refine (ends_imagesOf himage hw).bind ?_
  rintro news w₁ ⟨hw₁, hgrown₁, hnews⟩
  by_cases hsame : news = old
  · -- No image is new, and the list is where it was when the pass began.
    rw [if_pos hsame]
    exact Ends.pure ⟨hw₁, hgrown₁, news, hsame ▸ hw₁.grown.args_eq_ok hargs, hnews⟩
  · rw [if_neg hsame]
    -- The new list is as long as the old one, so it fits a span.
    have hshort : news.length < UInt16.size := by
      rw [hnews.length_eq, List.length_map, ← himage.length_eq]
      exact Graph.length_lt_of_args hargs
    refine (ends_pushArgs hshort).mono ?_
    rintro span' _ ⟨hspan', rfl⟩
    have hgrown₂ := Extends.addEntries w₁.graph news
    exact ⟨hw₁.mono hgrown₂ rfl, hgrown₁.trans hgrown₂, news, hspan',
      Graph.forall₂_unfolds_mono hgrown₂ hnews⟩

theorem ends_imageOfKind {kind : Kind} {ty : Ty} {t : Term} (hspells : g.Spells ⟨kind, ty⟩ t)
    (himage : ∀ s ∈ t.operands, ∀ id, g.Unfolds id s → rules.Renders g image id s)
    (hw : rules.Tracks g w) :
    Ends (imageOfKind image kind) w
      (rules.Advances g w fun h kind' => h.Spells ⟨kind', ty⟩ (t.mapOperands rules.rewrite))
      (·.graph.Full) := by
  cases hspells with
  | leaf => exact Ends.pure ⟨hw, .refl _, .leaf⟩
  | @comparison op left right l r ty hl hr =>
      have hleft := himage l (by simp [Term.operands]) left hl
      have hright := himage r (by simp [Term.operands]) right hr
      exact ends_imagesOfPair (Kind.comparison op) hleft hright (fun _ _ _ => .comparison) hw
  | @arithmetic op left right l r ty hl hr =>
      have hleft := himage l (by simp [Term.operands]) left hl
      have hright := himage r (by simp [Term.operands]) right hr
      exact ends_imagesOfPair (Kind.arithmetic op) hleft hright (fun _ _ _ => .arithmetic) hw
  | negation hx =>
      refine (himage _ (by simp [Term.operands]) _ hx w hw).bind ?_
      rintro operand w₁ ⟨hw₁, hgrown₁, hoperand⟩
      exact Ends.pure ⟨hw₁, hgrown₁, .negation hoperand⟩
  | virtualCall hbase hargs hids =>
      refine (himage _ (by simp [Term.operands]) _ hbase w hw).bind ?_
      rintro receiver w₁ ⟨hw₁, hgrown₁, hreceiver⟩
      have hall := forall₂_imp_mem hids fun s hs => himage s (List.mem_cons_of_mem _ hs)
      refine (ends_imageOfArgs hargs hall hw₁).bind ?_
      rintro span w₂ ⟨hw₂, hgrown₂, news, hspan, hnews⟩
      exact Ends.pure ⟨hw₂, hgrown₁.trans hgrown₂,
        .virtualCall (hreceiver.mono hgrown₂) hspan hnews⟩
  | staticCall hargs hids =>
      have hall := forall₂_imp_mem hids fun s hs => himage s hs
      refine (ends_imageOfArgs hargs hall hw).bind ?_
      rintro span w₁ ⟨hw₁, hgrown₁, news, hspan, hnews⟩
      exact Ends.pure ⟨hw₁, hgrown₁, .staticCall hspan hnews⟩

/-- A node over the images of its operands stands for its term over the rewritten operands. -/
theorem ends_overImages {id : NodeId} {t : Term} (hid : g.Unfolds id t)
    (himage : ∀ s ∈ t.operands, ∀ id, g.Unfolds id s → rules.Renders g image id s)
    (hw : rules.Tracks g w) :
    Ends (overImages image id) w
      (rules.Advances g w fun h new => h.Unfolds new (t.mapOperands rules.rewrite))
      (·.graph.Full) := by
  obtain ⟨hread, hspells⟩ := hid
  refine (Ends.view (hw.grown.node_eq_ok hread)).bind ?_
  rintro node _ ⟨rfl, rfl⟩
  refine (ends_imageOfKind hspells himage hw).bind ?_
  rintro kind w₁ ⟨hw₁, hgrown₁, hkind⟩
  by_cases hsame : kind = node.kind
  · -- The node itself is stored over the images already.
    rw [if_pos hsame]
    subst hsame
    exact Ends.pure ⟨hw₁, hgrown₁, .stored (hw₁.grown.node_eq_ok hread) hkind⟩
  · rw [if_neg hsame]
    refine (ends_push _).mono ?_
    rintro _ _ ⟨hroom, rfl, rfl⟩
    have hgrown₂ := Extends.addNode w₁.graph ⟨kind, node.ty⟩
    exact ⟨hw₁.mono hgrown₂ rfl, hgrown₁.trans hgrown₂, hkind.unfolds_addNode hroom⟩

/-! ## The rules, and a whole pass -/

theorem ends_place {replacement : Replacement} {t : Term}
    (h : w.graph.Offers replacement t) (hw : rules.Tracks g w) :
    Ends (Workspace.edit replacement.place) w (rules.Advances g w fun h new => h.Unfolds new t)
      (·.graph.Full) := by
  cases h with
  | stored hid => exact Or.inl ⟨_, w, rfl, hw, .refl _, hid⟩
  | @fresh node _ hnode =>
      refine (ends_push node).mono ?_
      rintro _ _ ⟨hroom, rfl, rfl⟩
      have hgrown := Extends.addNode w.graph node
      exact ⟨hw.mono hgrown rfl, hgrown, hnode.unfolds_addNode hroom⟩

/-- Applying the rules to a node takes its term one step further. -/
theorem ends_apply {id : NodeId} {t : Term} (hid : w.graph.Unfolds id t)
    (hw : rules.Tracks g w) :
    Ends (rules.apply id) w (rules.Advances g w fun h new => h.Unfolds new (rules.step t))
      (·.graph.Full) := by
  obtain ⟨answer, hanswer, hagrees⟩ := Graph.nodeRule_agrees hid rules
  refine (Ends.view hanswer).bind ?_
  rintro firing _ ⟨rfl, rfl⟩
  -- What the rule for the node offers is what the step from its term gives.
  rw [step]
  generalize rules.step? t = next at hagrees
  cases hagrees with
  | none => exact Ends.pure ⟨hw, .refl _, hid⟩
  | some hoffers =>
      refine (ends_place hoffers hw).bind ?_
      rintro target w₁ ⟨hw₁, hgrown₁, htarget⟩
      refine (Ends.recordReplacement _ _ _).bind ?_
      rintro _ _ rfl
      exact Ends.pure ⟨hw₁.mono (.refl _) rfl, hgrown₁, htarget⟩

/-- Where no rule applies to a node, the node stands for itself, and nothing else has changed. -/
theorem apply_of_none {id : NodeId}
    (hrule : w.graph.nodeRule rules.methods rules.groups id = .ok none) :
    rules.apply id w = .ok id w := by
  rw [apply, bind_of_ok (Workspace.view_of_ok hrule)]
  rfl

/-- Applying a rule that makes a node stores the node behind all others and counts and reports it, if
    there is room for it, and else does nothing. -/
theorem apply_fresh_cases {id : NodeId} {name : RuleName} {node : Node}
    (hrule : w.graph.nodeRule rules.methods rules.groups id = .ok (some ⟨name, .fresh node⟩)) :
    (w.graph.size < UInt32.size ∧
        rules.apply id w = .ok ⟨.ofNat w.graph.size⟩
          ⟨w.graph.addNode node, w.images, w.replaced + 1,
            w.log.push (.replaced name id ⟨.ofNat w.graph.size⟩)⟩) ∨
      (UInt32.size ≤ w.graph.size ∧
        rules.apply id w = .error (.tooManyNodes w.graph.size) w) := by
  rw [apply, bind_of_ok (Workspace.view_of_ok hrule)]
  rcases Graph.push_cases node w.graph with ⟨hroom, hrun⟩ | ⟨hfull, hrun⟩
  · have hplace : Replacement.place (.fresh node) w.graph
        = .ok ⟨.ofNat w.graph.size⟩ (w.graph.addNode node) := hrun
    exact Or.inl ⟨hroom, bind_of_ok (Workspace.edit_of_ok hplace)⟩
  · have hplace : Replacement.place (.fresh node) w.graph
        = .error (.tooManyNodes w.graph.size) w.graph := hrun
    exact Or.inr ⟨hfull, bind_of_error (Workspace.edit_of_error hplace)⟩

/-- Applying a rule that makes a node stores the node, if there is room for it. -/
theorem ends_apply_fresh {id : NodeId} {name : RuleName} {node : Node}
    (hrule : w.graph.nodeRule rules.methods rules.groups id = .ok (some ⟨name, .fresh node⟩)) :
    Ends (rules.apply id) w
      (fun image w' => w.graph.size < UInt32.size ∧ image = ⟨.ofNat w.graph.size⟩ ∧
        w'.graph = w.graph.addNode node)
      (fun _ => UInt32.size ≤ w.graph.size) := by
  rcases apply_fresh_cases hrule with ⟨hroom, hrun⟩ | ⟨hfull, hrun⟩
  · exact Or.inl ⟨_, _, hrun, hroom, rfl, rfl⟩
  · exact Or.inr ⟨_, _, hrun, hfull⟩

theorem ends_imageOf {depth : Nat} {id : NodeId} {t : Term} (hid : g.Unfolds id t)
    (hdepth : t.height ≤ depth) : rules.Renders g (rules.imageOf depth) id t := by
  induction t using Term.induct generalizing depth id with
  | node t ih =>
      intro w hw
      cases depth with
      | zero => rw [Term.height_eq] at hdepth; omega
      | succ depth =>
          refine (Ends.image? id).bind ?_
          rintro found w₁ ⟨rfl, hw₁⟩
          rw [hw₁]
          cases hfound : w.images[id]? with
          | some new =>
              -- The node was finished before: what stands in its place is known already.
              obtain ⟨t', hid', hnew⟩ := hw.images id new hfound
              cases hid.unique hid'
              exact Ends.pure ⟨hw, .refl _, hnew⟩
          | none =>
              -- The operands are lower than the node, so one level less is enough for them.
              have hoperands : ∀ s ∈ t.operands, ∀ id, g.Unfolds id s →
                  rules.Renders g (rules.imageOf depth) id s := by
                intro s hs id hid
                have hlower := Term.height_lt_of_mem_operands hs
                exact ih s hs hid (by omega)
              refine (ends_overImages hid hoperands hw).bind ?_
              rintro renewed w₂ ⟨hw₂, hgrown₂, hrenewed⟩
              refine (ends_apply hrenewed hw₂).bind ?_
              rintro new w₃ ⟨hw₃, hgrown₃, hnew⟩
              rw [← rewrite_eq] at hnew
              refine (Ends.finish id new).bind ?_
              rintro _ _ rfl
              exact Ends.pure ⟨hw₃.finish hid hnew, hgrown₂.trans hgrown₃, hnew⟩

/-- A pass from a node that stands for a term ends in a node that stands for the rewritten term. -/
theorem ends_pass {root : NodeId} {t : Term} (hroot : w.graph.Unfolds root t) (number : Nat) :
    Ends (rules.pass number root) w
      (rules.Advances w.graph w fun h image => h.Unfolds image (rules.rewrite t))
      (·.graph.Full) := by
  -- No image is kept yet when the pass begins, and the depth is enough for every term of the graph.
  let begun : Workspace := { w with images := ∅, replaced := 0 }
  have hbegun : rules.Tracks w.graph begun := by
    refine ⟨.refl _, fun id image hfound => ?_⟩
    simp only [begun, Std.TreeMap.getElem?_emptyc] at hfound
    cases hfound
  have hdepth : t.height ≤ w.graph.size + 1 := Nat.le_succ_of_le hroot.height_le
  refine (Ends.beginPass (w := w)).bind ?_
  rintro sizeBefore _ ⟨rfl, rfl⟩
  refine (ends_imageOf hroot hdepth begun hbegun).bind ?_
  rintro image w₁ ⟨hw₁, hgrown₁, himage⟩
  refine (Ends.endPass number w.graph.size).bind ?_
  rintro _ _ rfl
  exact Ends.pure ⟨hw₁.mono (.refl _) rfl, hgrown₁, himage⟩

/-- A pass over a shared graph computes the rewriting of terms: from a sound root it ends with an
    image that stands for the rewritten term of the root, and so does everything that the pass
    keeps as the image of a node.  Only a full graph can stop it. -/
theorem pass_computes_rewrite (rules : Rules) (number : Nat) (w : Workspace) (root : NodeId)
    (hsound : w.graph.Sound root) :
    ∃ t, w.graph.Unfolds root t ∧
      ((∃ image w', rules.pass number root w = .ok image w' ∧
          w'.graph.Unfolds image (rules.rewrite t) ∧ Extends w.graph w'.graph ∧
          ∀ id new, w'.images[id]? = some new →
            ∃ s, w.graph.Unfolds id s ∧ w'.graph.Unfolds new (rules.rewrite s)) ∨
        ∃ fault w', rules.pass number root w = .error fault w' ∧ w'.graph.Full) := by
  obtain ⟨t, hroot⟩ := Graph.exists_unfolds_iff.mpr hsound
  refine ⟨t, hroot, ?_⟩
  rcases ends_pass hroot number with ⟨image, w', hrun, hw', -, himage⟩ | hfault
  · exact Or.inl ⟨image, w', hrun, himage, hw'.grown, hw'.images⟩
  · exact Or.inr hfault

theorem pass_computes_rewrite_sample :
    Graph.sample.Sound ⟨3⟩ ∧
      ∃ image w', pass ⟨.standard, .all⟩ 1 ⟨3⟩ (.ofGraph .sample) = .ok image w' ∧
        w'.graph.Unfolds image (.negation (.leaf (.arg 0) .boolean) .boolean) := by
  refine ⟨Graph.sample_sound, ?_⟩
  obtain ⟨t, hroot, ⟨image, w', hrun, himage, -⟩ | ⟨fault, w', hrun, -⟩⟩ :=
    pass_computes_rewrite ⟨.standard, .all⟩ 1 (.ofGraph .sample) ⟨3⟩ Graph.sample_sound
  · cases hroot.unique Graph.sample_unfolds
    exact ⟨image, w', hrun, himage⟩
  · cases hrun

end Rules

end ValueGraph
