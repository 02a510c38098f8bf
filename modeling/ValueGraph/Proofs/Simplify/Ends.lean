/-
  ValueGraph.Proofs.Simplify.Ends

  Total statements about the steps of a run.  `Ends x w post stop` says how the
  step `x` ends from the workspace `w`: with an answer and a workspace that meet
  `post`, or with a fault in a workspace that meets `stop`.  There is one lemma
  for each way in which steps are put together, and one for each edit.

  A pass keeps the images of the nodes that it has finished.  Finishing a node
  preserves whatever holds of all images, if it holds of the new one
  (`forall_insert_images`).

  What can stop a pass over a sound graph is only that the graph is full
  (`Graph.Full`): no further node, or no further argument list, has a place that
  an identifier or a span can name.
-/
import ValueGraph.Proofs.Graph.Growth
import ValueGraph.Simplify.Workspace

namespace ValueGraph

/-- The graph can take no further node, or no further argument list. -/
def Graph.Full (g : Graph) : Prop := UInt32.size ≤ g.size ∨ UInt32.size ≤ g.entries.size

/-- How a step ends from a workspace: in an answer as `post` says, or in a fault as `stop` says. -/
def Ends {α : Type} (x : Simplify α) (w : Workspace) (post : α → Workspace → Prop)
    (stop : Workspace → Prop) : Prop :=
  (∃ a w', x w = .ok a w' ∧ post a w') ∨ (∃ fault w', x w = .error fault w' ∧ stop w')

namespace Ends

variable {α β : Type} {w : Workspace} {stop : Workspace → Prop}

theorem pure {a : α} {post : α → Workspace → Prop} (h : post a w) :
    Ends (Pure.pure a) w post stop :=
  Or.inl ⟨a, w, rfl, h⟩

theorem bind {x : Simplify α} {f : α → Simplify β} {mid : α → Workspace → Prop}
    {post : β → Workspace → Prop} (hx : Ends x w mid stop)
    (hf : ∀ a w', mid a w' → Ends (f a) w' post stop) : Ends (x >>= f) w post stop := by
  rcases hx with ⟨a, w', hrun, hmid⟩ | ⟨fault, w', hrun, hstop⟩
  · rw [Ends, bind_of_ok hrun]
    exact hf a w' hmid
  · exact Or.inr ⟨fault, w', bind_of_error hrun, hstop⟩

theorem mono {x : Simplify α} {post post' : α → Workspace → Prop} (hx : Ends x w post stop)
    (hpost : ∀ a w', post a w' → post' a w') : Ends x w post' stop := by
  rcases hx with ⟨a, w', hrun, h⟩ | hfault
  · exact Or.inl ⟨a, w', hrun, hpost a w' h⟩
  · exact Or.inr hfault

theorem mono_stop {x : Simplify α} {post : α → Workspace → Prop} {stop' : Workspace → Prop}
    (hx : Ends x w post stop) (hstop : ∀ w', stop w' → stop' w') : Ends x w post stop' := by
  rcases hx with hanswer | ⟨fault, w', hrun, h⟩
  · exact Or.inl hanswer
  · exact Or.inr ⟨fault, w', hrun, hstop w' h⟩

/-- A step that answers has ended as `post` says. -/
theorem of_ok {x : Simplify α} {w' : Workspace} {a : α} {post : α → Workspace → Prop}
    (h : Ends x w post stop) (hrun : x w = .ok a w') : post a w' := by
  rcases h with ⟨a', w'', hrun', hpost⟩ | ⟨fault, w'', hrun', -⟩
  · rw [hrun] at hrun'
    cases hrun'
    exact hpost
  · rw [hrun] at hrun'
    cases hrun'

/-- What is known of a step in two ways is known of it together. -/
theorem and {x : Simplify α} {post post' : α → Workspace → Prop} {stop' : Workspace → Prop}
    (h : Ends x w post stop) (h' : Ends x w post' stop') :
    Ends x w (fun a w' => post a w' ∧ post' a w') stop := by
  rcases h with ⟨a, w', hrun, hpost⟩ | hfault
  · exact Or.inl ⟨a, w', hrun, hpost, h'.of_ok hrun⟩
  · exact Or.inr hfault

/-- A reading that succeeds changes nothing. -/
theorem view {read : Graph → Except Fault α} {a : α} (hread : read w.graph = .ok a) :
    Ends (Workspace.view read) w (fun b w' => b = a ∧ w' = w) stop :=
  Or.inl ⟨a, w, Workspace.view_of_ok hread, rfl, rfl⟩

theorem image? (id : NodeId) :
    Ends (Workspace.image? id) w (fun found w' => found = w.images[id]? ∧ w' = w) stop :=
  Or.inl ⟨_, w, rfl, rfl, rfl⟩

theorem beginPass :
    Ends Workspace.beginPass w
      (fun size w' => size = w.graph.size ∧ w' = { w with images := ∅, replaced := 0 }) stop :=
  Or.inl ⟨_, _, rfl, rfl, rfl⟩

theorem endPass (number sizeBefore : Nat) :
    Ends (Workspace.endPass number sizeBefore) w
      (fun _ w' => w' = { w with
        log := w.log.push (.passed number w.replaced (w.graph.size - sizeBefore)) }) stop :=
  Or.inl ⟨_, _, rfl, rfl⟩

theorem finish (id image : NodeId) :
    Ends (Workspace.finish id image) w
      (fun _ w' => w' = { w with images := w.images.insert id image }) stop :=
  Or.inl ⟨_, _, rfl, rfl⟩

theorem recordReplacement (rule : RuleName) (source target : NodeId) :
    Ends (Workspace.recordReplacement rule source target) w
      (fun _ w' => w' = { w with
        replaced := w.replaced + 1, log := w.log.push (.replaced rule source target) }) stop :=
  Or.inl ⟨_, _, rfl, rfl⟩

end Ends

/-! ## Images -/

section Images

variable {images : Std.TreeMap NodeId NodeId} {id image : NodeId}

theorem getElem?_insert_images (images : Std.TreeMap NodeId NodeId) (id image other : NodeId) :
    (images.insert id image)[other]? = if other = id then some image else images[other]? := by
  rw [Std.TreeMap.getElem?_insert]
  by_cases hsame : other = id
  · rw [if_pos hsame, if_pos (by rw [hsame]; exact Std.ReflCmp.compare_self)]
  · rw [if_neg hsame, if_neg fun h => hsame (Std.LawfulEqOrd.eq_of_compare h).symm]

/-- What holds of all images, and of a new one, holds of all images when that has been added. -/
theorem forall_insert_images {p : NodeId → NodeId → Prop} (hnew : p id image)
    (hold : ∀ other new : NodeId, images[other]? = some new → p other new) (other new : NodeId)
    (hfound : (images.insert id image)[other]? = some new) : p other new := by
  rw [getElem?_insert_images] at hfound
  by_cases hsame : other = id
  · rw [if_pos hsame] at hfound
    cases hfound
    rw [hsame]
    exact hnew
  · rw [if_neg hsame] at hfound
    exact hold other new hfound

/-- A node that is not finished yet can be, and the images of the others stay. -/
theorem getElem?_insert_of_missing {other new : NodeId} (hid : images[id]? = none)
    (hother : images[other]? = some new) : (images.insert id image)[other]? = some new := by
  have hne : other ≠ id := by
    rintro rfl
    rw [hid] at hother
    cases hother
  rw [getElem?_insert_images, if_neg hne]
  exact hother

end Images

/-! ## Edits -/

section Edits

variable {w : Workspace}

/-- Storing a node answers the place behind all others, if there is one. -/
theorem ends_push (node : Node) :
    Ends (Workspace.edit (Graph.push node)) w
      (fun id w' => w.graph.size < UInt32.size ∧ id = ⟨.ofNat w.graph.size⟩ ∧
        w' = { w with graph := w.graph.addNode node })
      (fun w' => w'.graph.Full) := by
  rcases Graph.push_cases node w.graph with ⟨hroom, hrun⟩ | ⟨hfull, hrun⟩
  · exact Or.inl ⟨_, _, Workspace.edit_of_ok hrun, hroom, rfl, rfl⟩
  · exact Or.inr ⟨_, _, Workspace.edit_of_error hrun, Or.inl hfull⟩

/-- Storing an argument list that is short enough for a span answers a span of that list. -/
theorem ends_pushArgs {ids : List NodeId} (hshort : ids.length < UInt16.size) :
    Ends (Workspace.edit (Graph.pushArgs ids)) w
      (fun span w' => w'.graph.args span = .ok ids ∧
        w' = { w with graph := w.graph.addEntries ids })
      (fun w' => w'.graph.Full) := by
  rcases Graph.pushArgs_cases ids w.graph with ⟨span, hargs, hrun⟩ | ⟨hlong, -⟩ | ⟨hfull, hrun⟩
  · exact Or.inl ⟨span, _, Workspace.edit_of_ok hrun, hargs, rfl⟩
  · omega
  · exact Or.inr ⟨_, _, Workspace.edit_of_error hrun, Or.inr hfull⟩

end Edits

end ValueGraph
