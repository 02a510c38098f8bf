/-
  ValueGraph.Simplify.Workspace

  The state of a simplification run: the graph, what the current pass made of
  each node so far, and the report.
-/
import Std.Data.TreeMap
import ValueGraph.Simplify.Event

namespace ValueGraph

/-- The state of a run. -/
structure Workspace where
  graph : Graph
  /-- The image of every node that the current pass has finished. -/
  images : Std.TreeMap NodeId NodeId
  /-- The number of nodes that the current pass has replaced. -/
  replaced : Nat
  log : Array Event

/-- A step of a run.  A fault ends the run; what was stored and reported before it stays. -/
abbrev Simplify (α : Type) : Type := EStateM Fault Workspace α

namespace Workspace

/-- The state before the first pass. -/
def ofGraph (g : Graph) : Workspace := ⟨g, ∅, 0, #[]⟩

/-- Runs an edit on the graph of the run. -/
@[inline] def edit {α : Type} (change : Edit α) : Simplify α :=
  fun ⟨graph, images, replaced, log⟩ =>
    match change graph with
    | .ok value graph => .ok value ⟨graph, images, replaced, log⟩
    | .error fault graph => .error fault ⟨graph, images, replaced, log⟩

/-- Reads the graph of the run. -/
@[inline] def view {α : Type} (read : Graph → Except Fault α) : Simplify α := fun w =>
  match read w.graph with
  | .ok value => .ok value w
  | .error fault => .error fault w

/-- The image of a node, if the current pass has finished it. -/
@[inline] def image? (id : NodeId) : Simplify (Option NodeId) := fun w => .ok w.images[id]? w

/-- Finishes a node. -/
@[inline] def finish (id image : NodeId) : Simplify Unit :=
  fun ⟨graph, images, replaced, log⟩ => .ok () ⟨graph, images.insert id image, replaced, log⟩

/-- Reports an event. -/
@[inline] def report (event : Event) : Simplify Unit :=
  fun ⟨graph, images, replaced, log⟩ => .ok () ⟨graph, images, replaced, log.push event⟩

/-- Counts and reports a replacement. -/
@[inline] def recordReplacement (rule : RuleName) (source target : NodeId) : Simplify Unit :=
  fun ⟨graph, images, replaced, log⟩ =>
    .ok () ⟨graph, images, replaced + 1, log.push (.replaced rule source target)⟩

/-- Begins a pass: no node is finished, nothing is replaced.  Answers the size of the graph. -/
@[inline] def beginPass : Simplify Nat :=
  fun ⟨graph, _, _, log⟩ => .ok graph.size ⟨graph, ∅, 0, log⟩

/-- Ends a pass that began when the graph had the given size. -/
@[inline] def endPass (pass sizeBefore : Nat) : Simplify Unit :=
  fun ⟨graph, images, replaced, log⟩ =>
    .ok () ⟨graph, images, replaced, log.push (.passed pass replaced (graph.size - sizeBefore))⟩

/-! ## How reading and editing end -/

section Ending

variable {α : Type} {w : Workspace} {a : α} {g : Graph} {fault : Fault}

theorem view_of_ok {read : Graph → Except Fault α} (hread : read w.graph = .ok a) :
    view read w = .ok a w := by
  rw [view, hread]

theorem view_of_error {read : Graph → Except Fault α} (hread : read w.graph = .error fault) :
    view read w = .error fault w := by
  rw [view, hread]

theorem edit_of_ok {change : Edit α} (hrun : change w.graph = .ok a g) :
    edit change w = .ok a { w with graph := g } := by
  rw [edit, hrun]

theorem edit_of_error {change : Edit α} (hrun : change w.graph = .error fault g) :
    edit change w = .error fault { w with graph := g } := by
  rw [edit, hrun]

end Ending

end Workspace

end ValueGraph
