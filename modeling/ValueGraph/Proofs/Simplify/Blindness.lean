/-
  ValueGraph.Proofs.Simplify.Blindness

  A run is blind to payloads.

  Two runs with the same settings from the same root, over graphs that differ at
  most in payloads, are in lockstep.  All that they read of the graphs is the same
  in both or akin, so each step ends the same, and what they store is the same at
  the same place; the workspaces are related by `Workspace.AkinWithin` all along
  (`akin_run`).  So the runs end with the same answer or the same fault and have
  the same report, and the graphs differ in the end in the same payloads as in the
  beginning (`simplify_blind`).
-/
import ValueGraph.Proofs.Rule.Payload
import ValueGraph.Proofs.Simplify.Composition
import ValueGraph.Proofs.Simplify.Lockstep

namespace ValueGraph

open ValueGraph.Graph (Extends)

/-- Two workspaces that differ at most in payloads among the first `stored` nodes of their graphs. -/
structure Workspace.AkinWithin (stored : Nat) (w v : Workspace) : Prop where
  graph : w.graph.AkinWithin stored v.graph
  images_eq : w.images = v.images
  replaced_eq : w.replaced = v.replaced
  log_eq : w.log = v.log

namespace Lockstep

variable {stored : Nat} {α : Type}

/-- What follows the reading of a node is in lockstep if it does not look at payloads. -/
theorem node (id : NodeId) {f : Node → Simplify α}
    (hf : ∀ node, Lockstep (Workspace.AkinWithin stored) (f node))
    (hakin : ∀ a b : Node, a.Akin b → f a = f b) :
    Lockstep (Workspace.AkinWithin stored) (Workspace.view (·.node id) >>= f) := by
  intro w v h
  rcases h.graph.node_cases id with ⟨a, b, hw, hv, hab⟩ | ⟨fault, hw, hv⟩
  · rw [bind_of_ok (Workspace.view_of_ok hw), bind_of_ok (Workspace.view_of_ok hv), hakin a b hab]
    exact hf b w v h
  · rw [bind_of_error (Workspace.view_of_error hw), bind_of_error (Workspace.view_of_error hv)]
    exact .error h

theorem push (node : Node) :
    Lockstep (Workspace.AkinWithin stored) (Workspace.edit (Graph.push node)) := by
  rintro ⟨g, images, replaced, log⟩ ⟨g', _, _, _⟩ ⟨hgraph, rfl, rfl, rfl⟩
  have hgraph : g.AkinWithin stored g' := hgraph
  simp only [Workspace.edit, Graph.push, hgraph.size_eq]
  by_cases hroom : g'.size < UInt32.size
  · simp only [if_pos hroom]
    exact .ok ⟨hgraph.addNode node, rfl, rfl, rfl⟩
  · simp only [if_neg hroom]
    exact .error ⟨hgraph, rfl, rfl, rfl⟩

theorem pushArgs (ids : List NodeId) :
    Lockstep (Workspace.AkinWithin stored) (Workspace.edit (Graph.pushArgs ids)) := by
  rintro ⟨g, images, replaced, log⟩ ⟨g', _, _, _⟩ ⟨hgraph, rfl, rfl, rfl⟩
  have hgraph : g.AkinWithin stored g' := hgraph
  have hadded := hgraph.addEntries ids
  simp only [Workspace.edit, Graph.pushArgs, hgraph.entries_eq]
  by_cases hnone : ids.isEmpty = true
  · simp only [if_pos hnone]
    exact .ok ⟨hgraph, rfl, rfl, rfl⟩
  · by_cases hroom : g'.entries.size < UInt32.size
    · by_cases hshort : ids.length < UInt16.size
      · simp only [if_neg hnone, if_pos hroom, if_pos hshort]
        exact .ok ⟨hadded, rfl, rfl, rfl⟩
      · simp only [if_neg hnone, if_pos hroom, if_neg hshort]
        exact .error ⟨hadded, rfl, rfl, rfl⟩
    · simp only [if_neg hnone, if_neg hroom]
      exact .error ⟨hgraph, rfl, rfl, rfl⟩

end Lockstep

/-- All the steps of a run keep two workspaces in step that differ at most in payloads. -/
theorem akin_run (stored : Nat) :
    CompositionalRun fun x => Lockstep (Workspace.AkinWithin stored) x where
  pure := Lockstep.pure
  throw := Lockstep.throw
  bind := Lockstep.bind
  node := Lockstep.node
  args span := Lockstep.view fun _ _ h => h.graph.args_eq span
  nodeRule methods groups id := Lockstep.view fun _ _ h => h.graph.nodeRule_eq methods groups id
  push := Lockstep.push
  pushArgs := Lockstep.pushArgs
  image? id w v h := by
    rw [Workspace.image?, Workspace.image?, h.images_eq]
    exact .ok h
  finish id image := by
    rintro ⟨g, images, replaced, log⟩ ⟨g', _, _, _⟩ ⟨hgraph, rfl, rfl, rfl⟩
    exact .ok ⟨hgraph, rfl, rfl, rfl⟩
  recordReplacement rule source target := by
    rintro ⟨g, images, replaced, log⟩ ⟨g', _, _, _⟩ ⟨hgraph, rfl, rfl, rfl⟩
    exact .ok ⟨hgraph, rfl, rfl, rfl⟩
  beginPass := by
    rintro ⟨g, images, replaced, log⟩ ⟨g', _, _, _⟩ ⟨hgraph, rfl, rfl, rfl⟩
    have hsize : g.size = g'.size := hgraph.size_eq
    simp only [Workspace.beginPass, hsize]
    exact .ok ⟨hgraph, rfl, rfl, rfl⟩
  endPass number sizeBefore := by
    rintro ⟨g, images, replaced, log⟩ ⟨g', _, _, _⟩ ⟨hgraph, rfl, rfl, rfl⟩
    have hsize : g.size = g'.size := hgraph.size_eq
    simp only [Workspace.endPass, hsize]
    exact .ok ⟨hgraph, rfl, rfl, rfl⟩
  report event := by
    rintro ⟨g, images, replaced, log⟩ ⟨g', _, _, _⟩ ⟨hgraph, rfl, rfl, rfl⟩
    exact .ok ⟨hgraph, rfl, rfl, rfl⟩
  contains root := Lockstep.view fun _ _ h => congrArg Except.ok (h.graph.contains_eq root)

/-- A run is blind to payloads.  Over two graphs that differ at most in the values of literals that
    are no integers and in the positions of parameters, two runs with the same settings end with the
    same answer or the same fault, with the same images and the same report; what is stored behind
    the nodes that were there is the same in both, and these have stayed where they are.  This holds
    for every root.  In particular, a leaf with a payload is never zero to a rule, and never a
    literal to decide an equality with: beside an operand that is no integer zero it is left as it
    is, on whichever side it stands. -/
theorem simplify_blind (config : Config) (root : NodeId) (w : Workspace) (h : Graph)
    (hakin : w.graph.Akin h) :
    SameEnd (Workspace.AkinWithin w.graph.size) (simplify config root w)
        (simplify config root { w with graph := h }) ∧
      Extends w.graph (endState (simplify config root w)).graph ∧
      Extends h (endState (simplify config root { w with graph := h })).graph ∧
      ∀ (leaf other : NodeId) (a b : Node), w.graph.node leaf = .ok a → a.hasPayload = true →
        w.graph.node other = .ok b → b.isIntZero = false →
        ∀ op : RelOp, w.graph.comparisonRule config.groups op leaf other = .ok none ∧
          w.graph.comparisonRule config.groups op other leaf = .ok none := by
  refine ⟨?_, ?_, ?_, ?_⟩
  · exact (akin_run w.graph.size).simplify config root _ _ ⟨hakin.within, rfl, rfl, rfl⟩
  · exact grows_run.simplify config root w
  · exact grows_run.simplify config root { w with graph := h }
  · intro leaf other a b hleaf hpayload hother hzero op
    exact Graph.comparisonRule_of_hasPayload hleaf hpayload hother hzero config.groups op

/-- The comparison `0 eq x` of the integer zero with a long literal `x`. -/
def Graph.longSample (x : Int64) : Graph where
  nodes := #[⟨.leaf (.long x), .long⟩, .int 0, .comparison .eq ⟨1⟩ ⟨0⟩]
  entries := #[]

theorem Graph.longSample_akin (x y : Int64) : (longSample x).Akin (longSample y) where
  size_eq := rfl
  entries_eq := rfl
  nodes i a b ha hb := by
    match i with
    | 0 =>
        cases ha
        cases hb
        exact .leaf .long
    | 1 | 2 =>
        cases ha
        cases hb
        exact .same
    | i + 3 => cases ha

/-- A long zero is compared with the integer zero as any other long literal is: a run puts the
    integer on the right, and decides nothing. -/
theorem simplify_blind_sample :
    (Graph.longSample 0).Akin (Graph.longSample 5) ∧
      SameEnd (Workspace.AkinWithin 3) (simplify ⟨.all, 2, true⟩ ⟨2⟩ (.ofGraph (.longSample 0)))
        (simplify ⟨.all, 2, true⟩ ⟨2⟩ (.ofGraph (.longSample 5))) ∧
      (∃ w', simplify ⟨.all, 2, true⟩ ⟨2⟩ (.ofGraph (.longSample 0)) = .ok (.ok ⟨3⟩) w' ∧
        w'.graph.node ⟨3⟩ = .ok (.comparison .eq ⟨0⟩ ⟨1⟩)) ∧
      (Graph.longSample 0).comparisonRule .all .eq ⟨0⟩ ⟨0⟩ = .ok none := by
  have hakin := Graph.longSample_akin 0 5
  obtain ⟨hend, -, -, hnever⟩ :=
    simplify_blind ⟨.all, 2, true⟩ ⟨2⟩ (.ofGraph (.longSample 0)) (.longSample 5) hakin
  exact ⟨hakin, hend, ⟨_, rfl, rfl⟩, (hnever ⟨0⟩ ⟨0⟩ _ _ rfl rfl rfl rfl .eq).1⟩

end ValueGraph
