/-
  ValueGraph.Proofs.Capacity

  What the identifiers that a graph hands out are good for.

  A node is stored behind all others, and the number of its place is handed out
  for it.  So the identifier was never handed out before, and the node is read
  under it, whatever the number of places that are left.  But one of all 32-bit
  numbers, the last, is the invalid identifier, which no graph contains, and
  storing a node counts it among the places that there are.

    * Whatever is stored over a graph is handed out under an identifier that can
      be used, unless the graph has exactly one place left
      (`handsOutUsable_iff`).
    * A graph with one place left hands out the invalid identifier
      (`push_of_last`, `hands_out_invalid`).
    * Over a history, no identifier is handed out twice (`Store.push_ne_of_run`).
-/
import ValueGraph.Proofs.Rule.Orientation

namespace ValueGraph

open ValueGraph.Graph (Extends)

namespace Graph

variable {g h : Graph} {node : Node} {id : NodeId}

/-! ## What is handed out -/

/-- The identifier was handed out for some node, at some time before the graph had become what it
    is. -/
def Issued (g : Graph) (id : NodeId) : Prop :=
  ∃ g₀ node h₀, push node g₀ = .ok id h₀ ∧ Extends h₀ g

/-- What is expected of an identifier that is handed out for a node over `g`, where `h` is the graph
    that then has the node. -/
structure Usable (g h : Graph) (node : Node) (id : NodeId) : Prop where
  isValid : id.isValid = true
  contains : h.contains id = true
  new : ∀ old, g.Issued old → old ≠ id
  reads : h.node id = .ok node

/-- Whatever is stored next, by itself, by a builder, or for a rule on its own or in a run, is handed
    out under a usable identifier, if storing it is not stopped by a fault. -/
structure HandsOutUsable (g : Graph) : Prop where
  push : ∀ node, (∃ fault h, push node g = .error fault h) ∨
    ∃ id h, push node g = .ok id h ∧ Usable g h node id
  build : ∀ b : Builder, (∃ fault h, b.build g = .error fault h) ∨
    ∃ answer h, b.build g = .ok answer h ∧
      ∀ id, answer = .ok (some id) → ∃ node, h.nodes = g.nodes.push node ∧ Usable g h node id
  rule : ∀ rule node, rule g = .ok (some (.fresh node)) →
    (∃ fault h, applyRule rule g = .error fault h) ∨
      ∃ id h, applyRule rule g = .ok (some id) h ∧ Usable g h node id
  run : ∀ (rules : Rules) (w : Workspace) id name node, w.graph = g →
    g.nodeRule rules.methods rules.groups id = .ok (some ⟨name, .fresh node⟩) →
    Ends (rules.apply id) w (fun new w' => Usable g w'.graph node new) fun _ => True

/-! ## Places -/

/-- What is handed out is the number of the place behind all nodes, and the node is there. -/
theorem push_eq_ok (hpush : push node g = .ok id h) :
    g.size < UInt32.size ∧ id = ⟨.ofNat g.size⟩ ∧ h = g.addNode node := by
  rcases push_cases node g with ⟨hroom, hrun⟩ | ⟨-, hrun⟩
  · rw [hrun] at hpush
    cases hpush
    exact ⟨hroom, rfl, rfl⟩
  · rw [hrun] at hpush
    cases hpush

/-- What was handed out is the place of a node. -/
theorem Issued.index_lt (hid : g.Issued id) : id.index < g.size := by
  obtain ⟨g₀, node, h₀, hpush, hgrown⟩ := hid
  obtain ⟨hroom, rfl, rfl⟩ := push_eq_ok hpush
  have hsize := hgrown.size_le
  rw [size_addNode] at hsize
  rw [index_ofNat hroom]
  omega

/-- The place behind all nodes was never handed out. -/
theorem Issued.ne_ofNat_size {old : NodeId} (hroom : g.size < UInt32.size) (hold : g.Issued old) :
    old ≠ ⟨.ofNat g.size⟩ := by
  rintro rfl
  have hlt := hold.index_lt
  rw [index_ofNat hroom] at hlt
  omega

/-- The place behind all nodes is usable if it is not the last that there is. -/
theorem usable_ofNat_size (hroom : g.size + 1 < UInt32.size) (args : List NodeId) (node : Node) :
    Usable g ((g.addEntries args).addNode node) node ⟨.ofNat g.size⟩ := by
  have hsize : ((g.addEntries args).addNode node).size = g.size + 1 := size_addNode _ node
  have hindex : NodeId.index ⟨.ofNat g.size⟩ = g.size := index_ofNat (by omega)
  have hcontains : ((g.addEntries args).addNode node).contains ⟨.ofNat g.size⟩ = true :=
    contains_of_index_lt (by omega) (by omega)
  exact {
    isValid := (Bool.and_eq_true_iff.mp hcontains).1
    contains := hcontains
    new := fun old hold => hold.ne_ofNat_size (by omega)
    reads := node_addNode (g := g.addEntries args) (by show g.size < _; omega) node }

/-- With one place left, the invalid identifier is handed out. -/
theorem push_of_last (hlast : g.size + 1 = UInt32.size) (node : Node) :
    push node g = .ok .invalid (g.addNode node) := by
  have hroom : g.size < UInt32.size := by omega
  have hinvalid : NodeId.invalid.index + 1 = UInt32.size := rfl
  have hid : (⟨.ofNat g.size⟩ : NodeId) = .invalid := by
    apply NodeId.index_inj.mp
    rw [index_ofNat hroom]
    omega
  rw [push, if_pos hroom, hid]

/-! ## Usable identifiers -/

/-- What is handed out with one place left is not usable. -/
theorem not_handsOutUsable_of_last (hlast : g.size + 1 = UInt32.size) : ¬ g.HandsOutUsable := by
  intro hlaw
  have hrun := push_of_last hlast (.int 0)
  rcases hlaw.push (.int 0) with ⟨fault, h, hfault⟩ | ⟨id, h, hok, husable⟩
  · rw [hrun] at hfault
    cases hfault
  · rw [hrun] at hok
    cases hok
    exact absurd husable.isValid (by decide)

/-- The identifiers that are handed out over a graph are usable exactly if it does not have just one
    place left.  In any case the identifier of a node was not handed out before, and the node is read
    under it. -/
theorem handsOutUsable_iff (g : Graph) :
    (g.HandsOutUsable ↔ g.size + 1 ≠ UInt32.size) ∧
      ∀ node id h, push node g = .ok id h →
        (∀ old, g.Issued old → old ≠ id) ∧ h.node id = .ok node := by
  refine ⟨⟨fun hlaw hlast => not_handsOutUsable_of_last hlast hlaw, ?room⟩, ?always⟩
  case room =>
    intro hnotlast
    refine ⟨fun node => ?push, fun b => ?build, fun rule node hrule => ?rule,
      fun rules w id name node hw hrule => ?run⟩
    case push =>
      rcases push_cases node g with ⟨hroom, hrun⟩ | ⟨-, hrun⟩
      · exact Or.inr ⟨_, _, hrun, usable_ofNat_size (by omega) [] node⟩
      · exact Or.inl ⟨_, _, hrun⟩
    case build =>
      have hended := b.ended_build g
      generalize b.build g = result at hended
      cases hended with
      | stored args node hroom =>
          refine Or.inr ⟨_, _, rfl, fun id hid => ⟨node, rfl, ?_⟩⟩
          cases hid
          exact usable_ofNat_size (by omega) args node
      | nothing | refused =>
          refine Or.inr ⟨_, _, rfl, fun id hid => ?_⟩
          cases hid
      | stopped fault args => exact Or.inl ⟨fault, _, rfl⟩
    case rule =>
      rcases answersOne_fresh hrule with ⟨id, h, hrun, -, hroom, rfl, rfl⟩ | ⟨-, hrun⟩
      · exact Or.inr ⟨_, _, hrun, usable_ofNat_size (by omega) [] node⟩
      · exact Or.inl ⟨_, _, hrun⟩
    case run =>
      subst hw
      apply ((Rules.ends_apply_fresh hrule).mono ?_).mono_stop fun _ _ => trivial
      rintro new w' ⟨hroom, rfl, hgraph⟩
      rw [hgraph]
      exact usable_ofNat_size (by omega) [] node
  case always =>
    intro node id h hpush
    obtain ⟨hroom, rfl, rfl⟩ := push_eq_ok hpush
    exact ⟨fun old hold => hold.ne_ofNat_size hroom, node_addNode hroom node⟩

/-- The graph of so many integer literals. -/
def literals (count : Nat) : Graph := ⟨.replicate count (.int 0), #[]⟩

theorem size_literals (count : Nat) : (literals count).size = count := Array.size_replicate

/-- The literal that is stored behind 4294967295 others has the invalid identifier, and the graph does
    not contain it, although it is there. -/
theorem hands_out_invalid :
    push (.int 0) (literals 4294967295) = .ok .invalid ((literals 4294967295).addNode (.int 0)) ∧
      ((literals 4294967295).addNode (.int 0)).node .invalid = .ok (.int 0) ∧
      NodeId.invalid.isValid = false ∧
      ((literals 4294967295).addNode (.int 0)).contains .invalid = false ∧
      ¬ (literals 4294967295).HandsOutUsable := by
  have hlast : (literals 4294967295).size + 1 = UInt32.size := by rw [size_literals]
  have hrun := push_of_last hlast (.int 0)
  have hinvalid : NodeId.invalid.isValid = false := by decide
  refine ⟨hrun, ?_, hinvalid, ?_, not_handsOutUsable_of_last hlast⟩
  · obtain ⟨hroom, hid, -⟩ := push_eq_ok hrun
    rw [hid]
    exact node_addNode hroom _
  · rw [contains, hinvalid, Bool.false_and]

end Graph

/-! ## Histories -/

namespace Store

variable {s : Store} {node node' : Node} {id id' : NodeId} {h h' : Graph}

/-- What was handed out stays so over every history of a store. -/
theorem issued_run (hpush : Graph.push node s.graph = .ok id h) (ops : List Operation) :
    (Store.run ⟨h, s.names⟩ ops).graph.Issued id :=
  ⟨s.graph, node, h, hpush, (extends_run ⟨h, s.names⟩ ops).graph⟩

/-- No identifier is handed out twice over a history. -/
theorem push_ne_of_run (hpush : Graph.push node s.graph = .ok id h) (ops : List Operation)
    (hpush' : Graph.push node' (Store.run ⟨h, s.names⟩ ops).graph = .ok id' h') : id ≠ id' := by
  obtain ⟨hroom, rfl, -⟩ := Graph.push_eq_ok hpush'
  exact (issued_run hpush ops).ne_ofNat_size hroom

end Store

end ValueGraph
