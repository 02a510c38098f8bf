/-
  ValueGraph.Proofs.History

  A store over its whole history.

  A store is a graph and the table of the names in it.  Everything that can be
  done to it is an `Operation`: to store something, to apply a rule or all of
  them, to run a simplification, to intern a text.  Each of them grows the store,
  however it ends (`Store.extends_after`): a run stores by the same two edits as
  everything else, whatever its root is (`grows_run`).  So a store grows over
  every history (`Store.extends_run`), and what was known of a node is known of it
  for good (`Store.append_only`).
-/
import ValueGraph.Proofs.Graph.Building
import ValueGraph.Proofs.Graph.Rendering
import ValueGraph.Proofs.Simplify.Composition
import ValueGraph.Proofs.Simplify.Meaning

namespace ValueGraph

open ValueGraph.Graph (Extends)

/-! ## Operations -/

/-- Applies a rule, and stores the replacement if there is one. -/
def Graph.applyRule (rule : Graph → Except Fault (Option Replacement)) : Edit (Option NodeId) := do
  match ← view rule with
  | none => return none
  | some replacement => return some (← replacement.place)

/-- A graph, and the names in it. -/
structure Store where
  graph : Graph
  names : NameTable

/-- What can be done to a store. -/
inductive Operation where
  | push (node : Node)
  | pushArgs (ids : List NodeId)
  | build (b : Builder)
  | zeroRule (op : RelOp) (x : NodeId)
  | comparisonRule (groups : RuleGroups) (op : RelOp) (left right : NodeId)
  | methodRule (table : MethodTable) (sig : Signature) (receiver : NodeId) (args : Span)
  /-- All rules on one node. -/
  | applyRules (rules : Rules) (id : NodeId)
  | simplify (config : Config) (root : NodeId)
  | intern (text : String)

namespace Store

variable {s : Store}

/-- The store after an edit of its graph, however the edit ends. -/
def edited {α : Type} (s : Store) (change : Edit α) : Store :=
  { s with graph := endState (change s.graph) }

/-- The store after a step of a run of its own, however the step ends. -/
def stepped {α : Type} (s : Store) (step : Simplify α) : Store :=
  { s with graph := (endState (step (.ofGraph s.graph))).graph }

/-- The store after an operation, whether it answers, fails or stops in a fault. -/
def after (s : Store) : Operation → Store
  | .push node => s.edited (Graph.push node)
  | .pushArgs ids => s.edited (Graph.pushArgs ids)
  | .build b => s.edited b.build
  | .zeroRule op x => s.edited (Graph.applyRule (·.zeroRule op x))
  | .comparisonRule groups op left right =>
    s.edited (Graph.applyRule (·.comparisonRule groups op left right))
  | .methodRule table sig receiver args =>
    s.edited (Graph.applyRule (·.methodRule table sig receiver args))
  | .applyRules rules id => s.stepped (rules.apply id)
  | .simplify config root => s.stepped (ValueGraph.simplify config root)
  | .intern text =>
    match s.names.intern text with
    | .ok (_, names) => { s with names }
    | .error _ => s

/-- The store after one operation after the other. -/
def run (s : Store) (ops : List Operation) : Store := ops.foldl after s

theorem run_append (s : Store) (ops more : List Operation) :
    s.run (ops ++ more) = (s.run ops).run more :=
  List.foldl_append

/-! ## Growth -/

/-- Everything in the first store is in the second, at the same place. -/
structure Extends (s t : Store) : Prop where
  graph : Graph.Extends s.graph t.graph
  names : s.names.Extends t.names

theorem Extends.refl (s : Store) : s.Extends s := ⟨.refl _, .refl _⟩

theorem Extends.trans {s t u : Store} (hst : s.Extends t) (htu : t.Extends u) : s.Extends u :=
  ⟨hst.graph.trans htu.graph, hst.names.trans htu.names⟩

theorem extends_edited {α : Type} {change : Edit α} (hchange : Grows id change) (s : Store) :
    s.Extends (s.edited change) :=
  ⟨hchange s.graph, .refl _⟩

theorem extends_stepped {α : Type} {step : Simplify α} (hstep : Grows Workspace.graph step)
    (s : Store) : s.Extends (s.stepped step) :=
  ⟨hstep (.ofGraph s.graph), .refl _⟩

theorem grows_build (b : Builder) : Grows id b.build := by
  intro g
  have hended := b.ended_build g
  generalize b.build g = result at hended
  cases hended with
  | stored ids node _ => exact (Extends.addEntries g ids).trans (.addNode _ node)
  | nothing | refused => exact .refl g
  | stopped fault ids => exact .addEntries g ids

theorem grows_applyRule (rule : Graph → Except Fault (Option Replacement)) :
    Grows id (Graph.applyRule rule) := by
  refine (Grows.view rule).bind fun answer => ?_
  cases answer with
  | none => exact Grows.pure none
  | some replacement => exact (Grows.place replacement).bind fun target => Grows.pure (some target)

/-- However an operation ends, everything that was stored before it is still there. -/
theorem extends_after (s : Store) (op : Operation) : s.Extends (s.after op) := by
  cases op with
  | push node => exact extends_edited (Grows.push node) s
  | pushArgs ids => exact extends_edited (Grows.pushArgs ids) s
  | build b => exact extends_edited (grows_build b) s
  | zeroRule | comparisonRule | methodRule => exact extends_edited (grows_applyRule _) s
  | applyRules rules id => exact extends_stepped (grows_run.apply rules id) s
  | simplify config root => exact extends_stepped (grows_run.simplify config root) s
  | intern text =>
      -- The only operation that leaves the graph alone; a full table stays as it is.
      rw [after]
      cases hintern : s.names.intern text with
      | ok answer => exact ⟨.refl _, NameTable.extends_of_intern hintern⟩
      | error => exact .refl s

/-- A store grows over every history. -/
theorem extends_run (s : Store) (ops : List Operation) : s.Extends (s.run ops) := by
  induction ops generalizing s with
  | nil => exact .refl s
  | cons op rest ih => exact (s.extends_after op).trans (ih (s.after op))

/-! ## What stays true -/

/-- What can be asked of a node has the same answer in both stores. -/
structure Agrees (s t : Store) (id : NodeId) : Prop where
  node : ∃ node, s.graph.node id = .ok node ∧ t.graph.node id = .ok node
  children : ∃ ids, s.graph.children id = .ok ids ∧ t.graph.children id = .ok ids
  term : ∀ term, t.graph.Unfolds id term ↔ s.graph.Unfolds id term
  value : ∀ e methods value,
    t.graph.Evaluates e methods id value ↔ s.graph.Evaluates e methods id value
  text : ∃ text, s.graph.render s.names id = .ok text ∧ t.graph.render t.names id = .ok text

/-- A sound node whose names are interned stays what it is while the store grows. -/
theorem Extends.agrees {s t : Store} {id : NodeId} (hgrown : s.Extends t)
    (hsound : s.graph.Sound id) (hinterned : s.graph.Interned s.names id) : s.Agrees t id := by
  obtain ⟨term, hid⟩ := Graph.exists_unfolds_iff.mpr hsound
  obtain ⟨text, htext⟩ := Graph.render_grown hid hinterned
  have hterm : ∀ other, t.graph.Unfolds id other ↔ s.graph.Unfolds id other := by
    intro other
    refine ⟨fun hother => ?_, Graph.Unfolds.mono hgrown.graph⟩
    -- The node stands for its old term in the larger graph, and for no other.
    rw [← (hid.mono hgrown.graph).unique hother]
    exact hid
  obtain ⟨ids, hids, -⟩ := hid.exists_children
  obtain ⟨hread, -⟩ := hid
  exact {
    node := ⟨_, hread, hgrown.graph.node_eq_ok hread⟩
    children := ⟨ids, hids, Graph.children_mono hgrown.graph hids⟩
    term := hterm
    value := fun e methods value => exists_congr fun other => and_congr_left' (hterm other)
    text := ⟨text, htext _ _ (.refl _) (.refl _), htext _ _ hgrown.graph hgrown.names⟩ }

/-- What it means that a store is only ever appended to. -/
structure AppendOnly (s : Store) : Prop where
  /-- What is there before an operation is there after it, over every history. -/
  grown : ∀ ops more, (s.run ops).Extends (s.run (ops ++ more))
  /-- Storing a node adds it behind all others, and answers its place. -/
  push : ∀ node, match Graph.push node s.graph with
    | .ok id g => id.index = s.graph.size ∧ g.nodes = s.graph.nodes.push node
    | .error _ g => g = s.graph
  /-- A builder adds one node and answers its place, or adds no node. -/
  build : ∀ b : Builder, match b.build s.graph with
    | .ok (.ok (some id)) g =>
      id.index = s.graph.size ∧ ∃ node, g.nodes = s.graph.nodes.push node
    | .ok _ g => g = s.graph
    | .error _ g => g.nodes = s.graph.nodes
  /-- An argument list that is too long, or a left operand that is missing, stops a builder before
      it adds a node. -/
  stops : ∀ b : Builder, b.Unbuildable s.graph →
    ∃ fault g, b.build s.graph = .error fault g ∧ g.nodes = s.graph.nodes
  /-- A code that stands for no operator is refused, and changes nothing. -/
  refused : ∀ code left right unknown,
    (RelOp.ofCode code = .error unknown →
      Graph.comparisonOfCode code left right s.graph = .ok (.error unknown) s.graph) ∧
    (ArithOp.ofCode code = .error unknown →
      Graph.arithmeticOfCode code left right s.graph = .ok (.error unknown) s.graph)
  /-- The span of an argument list gives the list back for good. -/
  args : ∀ ids, match Graph.pushArgs ids s.graph with
    | .ok span g => g.nodes = s.graph.nodes ∧
      ∀ more, ((⟨g, s.names⟩ : Store).run more).graph.args span = .ok ids
    | .error _ g => g.nodes = s.graph.nodes
  /-- A sound node whose names are interned stays what it is. -/
  agrees : ∀ id, s.graph.Sound id → s.graph.Interned s.names id →
    ∀ more, s.Agrees (s.run more) id

/-- Every store is only ever appended to, whatever is done to it and however that ends. -/
theorem append_only (s : Store) : s.AppendOnly where
  grown ops more := by
    rw [run_append]
    exact extends_run _ more
  push node := by
    rcases Graph.push_cases node s.graph with ⟨hroom, hrun⟩ | ⟨-, hrun⟩
    · rw [hrun]
      exact ⟨UInt32.toNat_ofNat_of_lt' hroom, rfl⟩
    · rw [hrun]
  build b := by
    have hended := b.ended_build s.graph
    generalize b.build s.graph = result at hended
    -- An argument list that comes with a node, or without one, is not among the nodes.
    cases hended with
    | stored ids node hroom => exact ⟨UInt32.toNat_ofNat_of_lt' hroom, node, rfl⟩
    | nothing => rfl
    | refused unknown => rfl
    | stopped fault ids => rfl
  stops b hb := hb.stops
  refused code left right unknown := by
    constructor
    · intro hcode
      rw [Graph.comparisonOfCode, hcode]
      rfl
    · intro hcode
      rw [Graph.arithmeticOfCode, hcode]
      rfl
  args ids := by
    rcases Graph.pushArgs_cases ids s.graph with ⟨span, hargs, hrun⟩ | ⟨-, hrun⟩ | ⟨-, hrun⟩
    · rw [hrun]
      refine ⟨rfl, fun more => ?_⟩
      exact (extends_run ⟨_, s.names⟩ more).graph.args_eq_ok hargs
    · rw [hrun]
      rfl
    · rw [hrun]
  agrees id hsound hinterned more := (extends_run s more).agrees hsound hinterned

/-- The node `0 eq a.equals(b)` stays what it is while it is simplified, an arithmetic node fails for
    want of its left operand, and a text is interned. -/
theorem append_only_sample :
    Graph.equalsSample.Sound ⟨4⟩ ∧ Graph.equalsSample.Interned .initial ⟨4⟩ ∧
      Store.Agrees ⟨.equalsSample, .initial⟩
        (Store.run ⟨.equalsSample, .initial⟩ [.simplify ⟨.all, 3, true⟩ ⟨4⟩,
          .build (.arithmetic .add ⟨99⟩ ⟨0⟩), .intern "x"]) ⟨4⟩ := by
  have hsound : Graph.equalsSample.Sound ⟨4⟩ :=
    Graph.exists_unfolds_iff.mp ⟨_, Graph.equalsSample_unfolds⟩
  have hinterned : Graph.equalsSample.Interned .initial ⟨4⟩ := by
    intro id node _ hnode name hname
    rw [NameTable.size_initial]
    have hstored := Array.mem_of_getElem? (Graph.node_eq_ok_iff.mp hnode)
    simp only [Graph.equalsSample, List.mem_toArray, List.mem_cons, List.not_mem_nil,
      or_false] at hstored
    -- The only names are those of the call.
    rcases hstored with rfl | rfl | rfl | rfl | rfl
    · cases hname
    · cases hname
    · revert name
      decide
    · cases hname
    · cases hname
  exact ⟨hsound, hinterned, (append_only ⟨.equalsSample, .initial⟩).agrees ⟨4⟩ hsound hinterned _⟩

end Store

end ValueGraph
