/-
  ValueGraph.Proofs.Graph.WellFormed

  Graphs that were stored from the bottom up.

  In a well-formed graph every node can be read, with its argument list, and its
  operands and arguments were stored before it.  So nothing is below itself, and
  every stored node is a sound root (`WellFormed.sound`).

  A graph stays well-formed when an argument list is stored, and when a node is
  stored whose operands are there (`WellFormed.addEntries`,
  `WellFormed.addNode`).  Every builder does one of these or both, or is stopped
  by a limit of the graph; what it has stored by then leaves the graph
  well-formed as well (`Builder.preserves_build`), also if its answer is left aside
  (`Builder.preserves`).  So every graph that builders have built is well-formed
  (`Built.wellFormed`).
-/
import ValueGraph.Proofs.Graph.Growth
import ValueGraph.Proofs.Graph.Unfolding

namespace ValueGraph

namespace Graph

/-- Every node can be read with its argument list, and has its operands stored before it. -/
def WellFormed (g : Graph) : Prop :=
  ∀ (i : Nat) (node : Node), g.nodes[i]? = some node →
    ∃ ids, g.operandIds node.kind = .ok ids ∧ ∀ child ∈ ids, child.index < i

variable {g h : Graph} {id root : NodeId} {ids : List NodeId} {node : Node}

/-! ## What well-formed graphs are like -/

theorem wellFormed_empty : Graph.empty.WellFormed := by
  intro i node hstored
  cases hstored

theorem WellFormed.exists_children (hg : g.WellFormed) (hid : id.index < g.size) :
    ∃ ids, g.children id = .ok ids ∧ ∀ child ∈ ids, child.index < id.index := by
  have hstored : g.nodes[id.index]? = some g.nodes[id.index] := Array.getElem?_eq_getElem hid
  obtain ⟨ids, hids, hbelow⟩ := hg id.index _ hstored
  exact ⟨ids, (children_of_node (node_eq_ok_iff.mpr hstored)).trans hids, hbelow⟩

/-- Operands are stored before the node. -/
theorem WellFormed.index_lt (hg : g.WellFormed) (hid : id.index < g.size) {child : NodeId}
    (hchild : g.IsOperand id child) : child.index < id.index := by
  obtain ⟨ids, hids, hbelow⟩ := hg.exists_children hid
  obtain ⟨ids', hids', hmem⟩ := hchild
  cases hids.symm.trans hids'
  exact hbelow child hmem

theorem WellFormed.index_le_of_reaches (hg : g.WellFormed) (hroot : root.index < g.size)
    (hreach : g.Reaches root id) : id.index ≤ root.index := by
  induction hreach with
  | refl => exact Nat.le_refl _
  | tail _ hchild ih =>
      have hlt := hg.index_lt (Nat.lt_of_le_of_lt ih hroot) hchild
      omega

theorem WellFormed.index_lt_of_transGen (hg : g.WellFormed) (hroot : root.index < g.size)
    (hbelow : Relation.TransGen g.IsOperand root id) : id.index < root.index := by
  obtain ⟨middle, hreach, hchild⟩ := Relation.TransGen.tail'_iff.mp hbelow
  have hle := hg.index_le_of_reaches hroot hreach
  have hlt := hg.index_lt (Nat.lt_of_le_of_lt hle hroot) hchild
  omega

/-- Every stored node of a well-formed graph is a sound root. -/
theorem WellFormed.sound (hg : g.WellFormed) (hroot : root.index < g.size) : g.Sound root where
  readable id hid := by
    have hle := hg.index_le_of_reaches hroot hid
    obtain ⟨ids, hids, -⟩ := hg.exists_children (Nat.lt_of_le_of_lt hle hroot)
    exact ⟨ids, hids⟩
  acyclic id hid hcycle := by
    have hle := hg.index_le_of_reaches hroot hid
    exact Nat.lt_irrefl _ (hg.index_lt_of_transGen (Nat.lt_of_le_of_lt hle hroot) hcycle)

/-! ## Storing -/

theorem WellFormed.addEntries (hg : g.WellFormed) (ids : List NodeId) :
    (g.addEntries ids).WellFormed := by
  intro i node hstored
  obtain ⟨children, hids, hbelow⟩ := hg i node hstored
  exact ⟨children, operandIds_mono (Extends.addEntries g ids) hids, hbelow⟩

theorem WellFormed.addNode (hg : g.WellFormed) (hids : g.operandIds node.kind = .ok ids)
    (hbelow : ∀ child ∈ ids, child.index < g.size) : (g.addNode node).WellFormed := by
  have hgrown := Extends.addNode g node
  intro i other hstored
  rw [Graph.addNode, Array.getElem?_push] at hstored
  split at hstored
  case isTrue hlast =>
    cases hstored
    rw [hlast]
    exact ⟨ids, operandIds_mono hgrown hids, hbelow⟩
  case isFalse =>
    obtain ⟨children, hchildren, hbelow⟩ := hg i other hstored
    exact ⟨children, operandIds_mono hgrown hchildren, hbelow⟩

theorem index_lt_of_contains (h : g.contains id = true) : id.index < g.size := by
  rw [contains, Bool.and_eq_true, decide_eq_true_eq] at h
  exact h.2

end Graph

/-! ## Edits that preserve well-formed graphs -/

/-- An edit leaves a well-formed graph, whether it answers, and then as `post` says, or is stopped
    by a limit of the graph. -/
def Preserves {α : Type} (x : Edit α) (g : Graph) (post : α → Graph → Prop) : Prop :=
  (∃ a h, x g = .ok a h ∧ h.WellFormed ∧ post a h) ∨
    ∃ fault h, x g = .error fault h ∧ h.WellFormed ∧ fault.message?.isSome = true

namespace Preserves

open ValueGraph.Graph (Extends WellFormed)

variable {α β : Type} {g : Graph}

theorem pure {a : α} {post : α → Graph → Prop} (hg : g.WellFormed) (h : post a g) :
    Preserves (Pure.pure a) g post :=
  Or.inl ⟨a, g, rfl, hg, h⟩

theorem bind {x : Edit α} {f : α → Edit β} {mid : α → Graph → Prop} {post : β → Graph → Prop}
    (hx : Preserves x g mid) (hf : ∀ a h, h.WellFormed → mid a h → Preserves (f a) h post) :
    Preserves (x >>= f) g post := by
  rcases hx with ⟨a, h, hrun, hh, hmid⟩ | ⟨fault, h, hrun, hh, hlimit⟩
  · rw [Preserves, bind_of_ok hrun]
    exact hf a h hh hmid
  · exact Or.inr ⟨fault, h, bind_of_error hrun, hh, hlimit⟩

theorem view {read : Graph → Except Fault α} {a : α} (hg : g.WellFormed) (hread : read g = .ok a) :
    Preserves (Graph.view read) g (fun b h => b = a ∧ h = g) :=
  Or.inl ⟨a, g, Graph.view_of_ok hread, hg, rfl, rfl⟩

theorem push {node : Node} {ids : List NodeId} (hg : g.WellFormed)
    (hids : g.operandIds node.kind = .ok ids) (hbelow : ∀ child ∈ ids, child.index < g.size) :
    Preserves (Graph.push node) g (fun _ _ => True) := by
  rcases Graph.push_cases node g with ⟨-, hrun⟩ | ⟨-, hrun⟩
  · exact Or.inl ⟨_, _, hrun, hg.addNode hids hbelow, trivial⟩
  · exact Or.inr ⟨.tooManyNodes g.size, g, hrun, hg, rfl⟩

/-- The list that is too long for a span has been stored, and does no harm. -/
theorem pushArgs (ids : List NodeId) (hg : g.WellFormed) :
    Preserves (Graph.pushArgs ids) g (fun span h => Extends g h ∧ h.args span = .ok ids) := by
  rcases Graph.pushArgs_cases ids g with ⟨span, hargs, hrun⟩ | ⟨-, hrun⟩ | ⟨-, hrun⟩
  · exact Or.inl ⟨span, _, hrun, hg.addEntries ids, .addEntries g ids, hargs⟩
  · -- The entries are stored before the length is checked.
    exact Or.inr ⟨.tooManyArguments ids.length, _, hrun, hg.addEntries ids, rfl⟩
  · exact Or.inr ⟨.tooManyEntries g.entries.size, g, hrun, hg, rfl⟩

/-- Stores a node over an argument list and a few other operands. -/
theorem pushCall (node : Span → Node) (others : List NodeId) {args : List NodeId}
    (hg : g.WellFormed)
    (hids : ∀ (h : Graph) (span : Span), h.args span = .ok args →
      h.operandIds (node span).kind = .ok (others ++ args))
    (hbelow : ∀ child ∈ others ++ args, child.index < g.size) :
    Preserves (do Graph.push (node (← Graph.pushArgs args))) g (fun _ _ => True) := by
  refine (pushArgs args hg).bind ?_
  rintro span h hh ⟨hgrown, hargs⟩
  refine push hh (hids h span hargs) fun child hchild => ?_
  exact Nat.lt_of_lt_of_le (hbelow child hchild) hgrown.size_le

/-- Whatever is made of the answer of an edit, the graph is left as the edit leaves it. -/
theorem answer {x : Edit α} (f : α → β) (hx : Preserves x g fun _ _ => True) :
    Preserves (do return f (← x)) g (fun _ _ => True) :=
  hx.bind fun _ _ hh _ => pure hh trivial

end Preserves

/-! ## Builders -/

/-- The ways to store a node, with what each of them is given. -/
inductive Builder where
  | leaf (value : Leaf) (ty : Ty)
  | int (value : Int32)
  | long (value : Int64)
  | double (bits : UInt64)
  | str (text : Name)
  | comparison (op : RelOp) (left right : NodeId)
  | comparisonOfCode (code : UInt8) (left right : NodeId)
  | arithmetic (op : ArithOp) (left right : NodeId)
  | arithmeticOfCode (code : UInt8) (left right : NodeId)
  | negation (operand : NodeId)
  | virtualCall (sig : Signature) (receiver : NodeId) (args : List NodeId) (ty : Ty)
  | staticCall (sig : Signature) (args : List NodeId) (ty : Ty)
  | complementOf (id : NodeId)

namespace Builder

/-- The identifiers that a builder is given. -/
def operands : Builder → List NodeId
  | leaf _ _ | int _ | long _ | double _ | str _ => []
  | comparison _ left right | comparisonOfCode _ left right | arithmetic _ left right
  | arithmeticOfCode _ left right => [left, right]
  | negation operand => [operand]
  | virtualCall _ receiver args _ => receiver :: args
  | staticCall _ args _ => args
  | complementOf id => [id]

/-- What a builder answers: the node that it stored, or none if there was none to make, or the
    operator code that it refused. -/
abbrev Answer : Type := Except UnknownOperator (Option NodeId)

/-- Runs a builder. -/
def build : Builder → Edit Answer
  | leaf value ty => return .ok (some (← Graph.leaf value ty))
  | int value => return .ok (some (← Graph.int value))
  | long value => return .ok (some (← Graph.long value))
  | double bits => return .ok (some (← Graph.double bits))
  | str text => return .ok (some (← Graph.str text))
  | comparison op left right => return .ok (some (← Graph.comparison op left right))
  | comparisonOfCode code left right => return some <$> (← Graph.comparisonOfCode code left right)
  | arithmetic op left right => return .ok (some (← Graph.arithmetic op left right))
  | arithmeticOfCode code left right => return some <$> (← Graph.arithmeticOfCode code left right)
  | negation operand => return .ok (some (← Graph.negation operand))
  | virtualCall sig receiver args ty => return .ok (some (← Graph.virtualCall sig receiver args ty))
  | staticCall sig args ty => return .ok (some (← Graph.staticCall sig args ty))
  | complementOf id => return .ok (← Graph.complementOf id)

/-- Runs a builder, and leaves its answer aside. -/
def run : Builder → Edit Unit
  | leaf value ty => do let _ ← Graph.leaf value ty; return ()
  | int value => do let _ ← Graph.int value; return ()
  | long value => do let _ ← Graph.long value; return ()
  | double bits => do let _ ← Graph.double bits; return ()
  | str text => do let _ ← Graph.str text; return ()
  | comparison op left right => do let _ ← Graph.comparison op left right; return ()
  | comparisonOfCode code left right => do
    let _ ← Graph.comparisonOfCode code left right; return ()
  | arithmetic op left right => do let _ ← Graph.arithmetic op left right; return ()
  | arithmeticOfCode code left right => do
    let _ ← Graph.arithmeticOfCode code left right; return ()
  | negation operand => do let _ ← Graph.negation operand; return ()
  | virtualCall sig receiver args ty => do
    let _ ← Graph.virtualCall sig receiver args ty; return ()
  | staticCall sig args ty => do let _ ← Graph.staticCall sig args ty; return ()
  | complementOf id => do let _ ← Graph.complementOf id; return ()

theorem run_eq_build (b : Builder) : b.run = (do let _ ← b.build; return ()) := by
  cases b <;> simp only [run, build, bind_assoc, pure_bind]

variable {g : Graph}

theorem preserves_arithmetic {left right : NodeId} (op : ArithOp) (hg : g.WellFormed)
    (hbelow : ∀ child ∈ [left, right], child.index < g.size) :
    Preserves (Graph.arithmetic op left right) g (fun _ _ => True) := by
  -- The type of the left operand can be read.
  have hty : ∃ ty, g.arithmeticType op left = .ok ty := by
    have hleft := hbelow left (List.mem_cons_self ..)
    have hstored : g.node left = .ok g.nodes[left.index] :=
      Graph.node_eq_ok_iff.mpr (Array.getElem?_eq_getElem hleft)
    rw [Graph.arithmeticType, hstored]
    split
    · exact ⟨_, rfl⟩
    · exact ⟨_, rfl⟩
  obtain ⟨ty, hty⟩ := hty
  refine (Preserves.view hg hty).bind ?_
  rintro _ _ hh ⟨rfl, rfl⟩
  exact Preserves.push hh rfl hbelow

/-- A comparison and its complement have the same operands. -/
theorem operandIds_complement {node complement : Node} (h : node.complement? = some complement) :
    g.operandIds complement.kind = g.operandIds node.kind := by
  obtain ⟨kind, ty⟩ := node
  cases kind with
  | comparison op left right =>
      cases h
      rfl
  | leaf | arithmetic | negation | virtualCall | staticCall => cases h

theorem preserves_complementOf {id : NodeId} (hg : g.WellFormed) (hid : id.index < g.size) :
    Preserves (Graph.complementOf id) g (fun _ _ => True) := by
  have hstored : g.nodes[id.index]? = some g.nodes[id.index] := Array.getElem?_eq_getElem hid
  refine (Preserves.view hg (Graph.node_eq_ok_iff.mpr hstored)).bind ?_
  rintro node h hh ⟨hnode, rfl⟩
  rw [← hnode] at hstored
  cases hcomplement : node.complement? with
  | none => exact Preserves.pure hh trivial
  | some complement =>
      obtain ⟨ids, hids, hbelow⟩ := hh id.index node hstored
      rw [← operandIds_complement hcomplement] at hids
      refine (Preserves.push hh hids fun child hchild => ?_).answer _
      exact Nat.lt_trans (hbelow child hchild) hid

/-- A builder that is given stored nodes leaves a well-formed graph well-formed, whether it answers
    or is stopped by a limit of the graph. -/
theorem preserves_build (b : Builder) (hg : g.WellFormed)
    (hoperands : ∀ id ∈ b.operands, g.contains id = true) :
    Preserves b.build g (fun _ _ => True) := by
  have hbelow : ∀ id ∈ b.operands, id.index < g.size := fun id hid =>
    Graph.index_lt_of_contains (hoperands id hid)
  cases b with
  | leaf | int | long | double | str => exact (Preserves.push hg rfl hbelow).answer _
  | comparison | negation => exact (Preserves.push hg rfl hbelow).answer _
  | comparisonOfCode code left right =>
      refine Preserves.answer (some <$> ·) ?_
      rw [Graph.comparisonOfCode]
      split
      · exact (Preserves.push hg rfl hbelow).answer _
      · exact Preserves.pure hg trivial
  | arithmetic op => exact (preserves_arithmetic op hg hbelow).answer _
  | arithmeticOfCode code left right =>
      refine Preserves.answer (some <$> ·) ?_
      rw [Graph.arithmeticOfCode]
      split
      · exact (preserves_arithmetic _ hg hbelow).answer _
      · exact Preserves.pure hg trivial
  | virtualCall sig receiver args ty =>
      let node : Span → Node := fun span => ⟨.virtualCall sig receiver span, ty⟩
      refine (Preserves.pushCall node [receiver] hg ?_ hbelow).answer _
      intro h span hargs
      rw [Graph.operandIds, hargs]
      rfl
  | staticCall sig args ty =>
      let node : Span → Node := fun span => ⟨.staticCall sig span, ty⟩
      exact (Preserves.pushCall node [] hg (fun _ _ hargs => hargs) hbelow).answer _
  | complementOf id =>
      exact (preserves_complementOf hg (hbelow id (List.mem_singleton_self _))).answer _

theorem preserves (b : Builder) (hg : g.WellFormed)
    (hoperands : ∀ id ∈ b.operands, g.contains id = true) :
    Preserves b.run g (fun _ _ => True) := by
  rw [run_eq_build]
  exact (b.preserves_build hg hoperands).answer _

end Builder

/-- A graph that has been built from the empty one, every builder having been given nodes that were
    there. -/
inductive Built : Graph → Prop
  | empty : Built .empty
  | step {b : Builder} {g h : Graph} :
      Built g → (∀ id ∈ b.operands, g.contains id = true) → b.run g = .ok () h → Built h

theorem Built.wellFormed {g : Graph} (hbuilt : Built g) : g.WellFormed := by
  induction hbuilt with
  | empty => exact Graph.wellFormed_empty
  | step _ hoperands hrun ih =>
      rcases Builder.preserves _ ih hoperands with ⟨_, h, hrun', hh, -⟩ | ⟨fault, h, hrun', -⟩
      · cases hrun.symm.trans hrun'
        exact hh
      · cases hrun.symm.trans hrun'

theorem Graph.built_sample : Built .sample := by
  have ha : Built _ := .step (b := .leaf (.arg 0) .boolean) .empty nofun rfl
  have hzero : Built _ := .step (b := .int 0) ha nofun rfl
  have hne : Built _ := .step (b := .comparison .ne ⟨0⟩ ⟨1⟩) hzero (by decide) rfl
  exact .step (b := .comparison .eq ⟨2⟩ ⟨1⟩) hne (by decide) rfl

end ValueGraph
