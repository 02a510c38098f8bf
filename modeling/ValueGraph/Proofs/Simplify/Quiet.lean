/-
  ValueGraph.Proofs.Simplify.Quiet

  A pass over a canonical graph changes nothing.

  The invariant is `Workspace.Quiet`: since the pass began the graph, the number
  of replacements and the report are the same, and every image that the pass
  keeps is the node itself.  Over operands that keep their identifiers a node
  and an argument list keep theirs, and no rule has a step, so the induction on
  the term of a node needs no other fact (`keeps_imageOf`).  Over canonical
  operands a pass therefore comes down to the rules for the root
  (`exists_pass_eq_apply`).  If these have no step either, nothing is stored, so
  nothing can stop such a pass (`pass_of_canonical`).
-/
import ValueGraph.Proofs.Simplify.Rewriting
import ValueGraph.Proofs.Term.Canonical

namespace ValueGraph

/-- Nothing has changed from `w₀` to `w`, and every image in `w` is the node itself. -/
structure Workspace.Quiet (w₀ w : Workspace) : Prop where
  graph : w.graph = w₀.graph
  replaced : w.replaced = w₀.replaced
  log : w.log = w₀.log
  images : ∀ id image : NodeId, w.images[id]? = some image → image = id

namespace Rules

/-- A step keeps quiet, and has only one answer. -/
def Keeps {α : Type} (w₀ : Workspace) (x : Simplify α) (a : α) : Prop :=
  ∀ w, w₀.Quiet w → Ends x w (fun a' w' => a' = a ∧ w₀.Quiet w') (fun _ => False)

variable {rules : Rules} {w₀ : Workspace} {image : NodeId → Simplify NodeId}

theorem keeps_pure {α : Type} (a : α) : Keeps w₀ (pure a) a := fun _ hw => Ends.pure ⟨rfl, hw⟩

theorem Keeps.bind {α β : Type} {x : Simplify α} {f : α → Simplify β} {a : α} {b : β}
    (hx : Keeps w₀ x a) (hf : Keeps w₀ (f a) b) : Keeps w₀ (x >>= f) b := by
  intro w hw
  refine (hx w hw).bind ?_
  rintro _ w' ⟨rfl, hw'⟩
  exact hf w' hw'

theorem keeps_view {α : Type} {read : Graph → Except Fault α} {a : α}
    (hread : read w₀.graph = .ok a) : Keeps w₀ (Workspace.view read) a := by
  intro w hw
  rw [← hw.graph] at hread
  refine (Ends.view hread).mono ?_
  rintro _ _ ⟨rfl, rfl⟩
  exact ⟨rfl, hw⟩

theorem keeps_imagesOf {ids : List NodeId} (himage : ∀ id ∈ ids, Keeps w₀ (image id) id) :
    Keeps w₀ (imagesOf image ids) ids := by
  induction ids with
  | nil => exact keeps_pure []
  | cons first rest ih =>
      have hrest := ih fun id hid => himage id (List.mem_cons_of_mem _ hid)
      exact (himage first (List.mem_cons_self ..)).bind (hrest.bind (keeps_pure _))

theorem keeps_imageOfArgs {span : Span} {ids : List NodeId} (hargs : w₀.graph.args span = .ok ids)
    (himage : ∀ id ∈ ids, Keeps w₀ (image id) id) : Keeps w₀ (imageOfArgs image span) span := by
  refine (keeps_view hargs).bind ((keeps_imagesOf himage).bind ?_)
  -- The list of the images is the list itself, so it is not stored again.
  rw [if_pos rfl]
  exact keeps_pure span

theorem keeps_imageOfKind {kind : Kind} {ids : List NodeId}
    (hids : w₀.graph.operandIds kind = .ok ids) (himage : ∀ id ∈ ids, Keeps w₀ (image id) id) :
    Keeps w₀ (imageOfKind image kind) kind := by
  cases kind with
  | leaf value => exact keeps_pure _
  | comparison op left right | arithmetic op left right =>
      cases hids
      exact (himage left (by simp)).bind ((himage right (by simp)).bind (keeps_pure _))
  | negation operand =>
      cases hids
      exact (himage operand (by simp)).bind (keeps_pure _)
  | virtualCall sig receiver span =>
      obtain ⟨args, hargs, rfl⟩ := Graph.operandIds_virtualCall hids
      have hspan := keeps_imageOfArgs hargs fun id hid => himage id (List.mem_cons_of_mem _ hid)
      exact (himage receiver (List.mem_cons_self ..)).bind (hspan.bind (keeps_pure _))
  | staticCall sig span => exact (keeps_imageOfArgs hids himage).bind (keeps_pure _)

theorem keeps_overImages {id : NodeId} {t : Term} (hid : w₀.graph.Unfolds id t)
    (himage : ∀ s ∈ t.operands, ∀ id, w₀.graph.Unfolds id s → Keeps w₀ (image id) id) :
    Keeps w₀ (overImages image id) id := by
  obtain ⟨hread, hspells⟩ := hid
  obtain ⟨ids, hids, hall⟩ := hspells.operandIds
  have hkeeps : ∀ id ∈ ids, Keeps w₀ (image id) id := by
    intro id hid
    obtain ⟨s, hs, hunfolds⟩ := exists_of_mem_forall₂ hall.flip hid
    exact himage s hs id hunfolds
  refine (keeps_view hread).bind ((keeps_imageOfKind hids hkeeps).bind ?_)
  rw [if_pos rfl]
  exact keeps_pure id

theorem keeps_apply {id : NodeId} {t : Term} (hid : w₀.graph.Unfolds id t)
    (hstep : rules.step? t = none) : Keeps w₀ (rules.apply id) id := by
  obtain ⟨answer, hanswer, hagrees⟩ := Graph.nodeRule_agrees hid rules
  rw [hstep] at hagrees
  cases hagrees with
  | none => exact (keeps_view hanswer).bind (keeps_pure id)

theorem keeps_finish (id : NodeId) : Keeps w₀ (Workspace.finish id id) () := by
  intro w hw
  refine (Ends.finish id id).mono ?_
  rintro _ _ rfl
  exact ⟨rfl, hw.graph, hw.replaced, hw.log, forall_insert_images rfl hw.images⟩

theorem keeps_imageOf {depth : Nat} {id : NodeId} {t : Term} (hid : w₀.graph.Unfolds id t)
    (hcanonical : rules.Canonical t) (hdepth : t.height ≤ depth) :
    Keeps w₀ (rules.imageOf depth id) id := by
  induction t using Term.induct generalizing depth id with
  | node t ih =>
      intro w hw
      cases depth with
      | zero => rw [Term.height_eq] at hdepth; omega
      | succ depth =>
          obtain ⟨hstep, hcanonical⟩ := canonical_iff.mp hcanonical
          refine (Ends.image? id).bind ?_
          rintro found w₁ ⟨rfl, hw₁⟩
          rw [hw₁]
          cases hfound : w.images[id]? with
          | some image => exact Ends.pure ⟨hw.images id image hfound, hw⟩
          | none =>
              have hoperands : ∀ s ∈ t.operands, ∀ id, w₀.graph.Unfolds id s →
                  Keeps w₀ (rules.imageOf depth id) id := by
                intro s hs id hid
                have hlower := Term.height_lt_of_mem_operands hs
                exact ih s hs hid (hcanonical s hs) (by omega)
              refine Keeps.bind (keeps_overImages hid hoperands) ?_ w hw
              refine (keeps_apply hid hstep).bind ?_
              exact (keeps_finish id).bind (keeps_pure id)

theorem quiet_begun (w : Workspace) :
    Workspace.Quiet { w with images := ∅, replaced := 0 }
      { w with images := ∅, replaced := 0 } := by
  refine ⟨rfl, rfl, rfl, fun id image hfound => ?_⟩
  simp only [Std.TreeMap.getElem?_emptyc] at hfound
  cases hfound

/-- If the operands of the root are canonical, all that a pass does is to apply the rules to the
    root. -/
theorem exists_pass_eq_apply {w : Workspace} {root : NodeId} {t : Term}
    (hroot : w.graph.Unfolds root t) (hoperands : ∀ s ∈ t.operands, rules.Canonical s)
    (number : Nat) :
    ∃ images, rules.pass number root w
      = (do
          let image ← rules.apply root
          Workspace.finish root image
          Workspace.endPass number w.graph.size
          return image : Simplify NodeId) ⟨w.graph, images, 0, w.log⟩ := by
  let begun : Workspace := { w with images := ∅, replaced := 0 }
  have hroot' : begun.graph.Unfolds root t := hroot
  have himages : ∀ s ∈ t.operands, ∀ id, begun.graph.Unfolds id s →
      Keeps begun (rules.imageOf w.graph.size id) id := by
    intro s hs id hid
    have hlower := Term.height_lt_of_mem_operands hs
    have hheight := hroot.height_le
    exact keeps_imageOf hid (hoperands s hs) (by omega)
  have hover : ∃ images, overImages (rules.imageOf w.graph.size) root begun
      = .ok root ⟨w.graph, images, 0, w.log⟩ := by
    rcases keeps_overImages hroot' himages begun (quiet_begun w) with
      ⟨_, ⟨graph, images, replaced, log⟩, hrun, rfl, rfl, rfl, rfl, -⟩ | ⟨_, _, -, hfalse⟩
    · exact ⟨images, hrun⟩
    · exact absurd hfalse not_false
  obtain ⟨images, hover⟩ := hover
  refine ⟨images, ?_⟩
  have hmissing : Workspace.image? root begun = .ok none begun := by
    rw [Workspace.image?, Std.TreeMap.getElem?_emptyc]
  show (rules.imageOf (w.graph.size + 1) root >>= fun image => do
    Workspace.endPass number w.graph.size
    return image) begun = _
  rw [imageOf, bind_assoc, bind_of_ok hmissing]
  simp only [bind_assoc, pure_bind]
  rw [bind_of_ok hover]

/-- A pass over a canonical graph keeps the root, replaces nothing and stores nothing. -/
theorem pass_of_canonical {w : Workspace} {root : NodeId} {t : Term}
    (hroot : w.graph.Unfolds root t) (hcanonical : rules.Canonical t) (number : Nat) :
    ∃ images, rules.pass number root w
      = .ok root ⟨w.graph, images, 0, w.log.push (.passed number 0 0)⟩ := by
  obtain ⟨hstep, hoperands⟩ := canonical_iff.mp hcanonical
  obtain ⟨images, hpass⟩ := exists_pass_eq_apply hroot hoperands number
  -- There is no rule for the root either.
  obtain ⟨answer, hanswer, hagrees⟩ := Graph.nodeRule_agrees hroot rules
  rw [hstep] at hagrees
  cases hagrees
  have happly : rules.apply root ⟨w.graph, images, 0, w.log⟩
      = .ok root ⟨w.graph, images, 0, w.log⟩ := apply_of_none hanswer
  refine ⟨images.insert root root, ?_⟩
  rw [hpass, bind_of_ok happly]
  show EStateM.Result.ok root (⟨w.graph, images.insert root root, 0,
    w.log.push (.passed number 0 (w.graph.size - w.graph.size))⟩ : Workspace) = _
  rw [Nat.sub_self]

end Rules

end ValueGraph
