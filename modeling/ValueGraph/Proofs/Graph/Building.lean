/-
  ValueGraph.Proofs.Graph.Building

  What a builder stores.

  A builder that answers an identifier has stored one node, behind all others,
  and the identifier is the place of that node.  A builder that refuses an
  operator code, or has no node to make, has stored nothing.  A builder that is
  stopped has stored no node, though it may have stored an argument list by then
  (`Builder.ended_build`).  A list longer than a span can be stops it, and so does
  a left operand that is missing where a type is needed
  (`Builder.Unbuildable.stops`).
-/
import ValueGraph.Proofs.Graph.WellFormed

namespace ValueGraph

open ValueGraph.Graph (Extends)

/-! ## Storing one node -/

/-- How a step ends that is there to store one node, possibly over an argument list: with the
    identifier of the place behind all nodes, or in a fault without another node. -/
inductive StoresOne (g : Graph) : EStateM.Result Fault Graph NodeId → Prop
  | stored (ids : List NodeId) (node : Node) : g.size < UInt32.size →
      StoresOne g (.ok ⟨.ofNat g.size⟩ ((g.addEntries ids).addNode node))
  | stopped (fault : Fault) (ids : List NodeId) : StoresOne g (.error fault (g.addEntries ids))

namespace StoresOne

variable {g : Graph}

theorem push_addEntries (node : Node) (ids : List NodeId) :
    StoresOne g (Graph.push node (g.addEntries ids)) := by
  -- The argument list takes none of the places of nodes.
  rcases Graph.push_cases node (g.addEntries ids) with ⟨hroom, hrun⟩ | ⟨-, hrun⟩
  · rw [hrun]
    exact .stored ids node hroom
  · rw [hrun]
    exact .stopped _ ids

theorem push (node : Node) : StoresOne g (Graph.push node g) := push_addEntries node []

/-- An arithmetic node whose left operand is missing stops before anything is stored. -/
theorem arithmetic (op : ArithOp) (left right : NodeId) :
    StoresOne g (Graph.arithmetic op left right g) := by
  cases hty : g.arithmeticType op left with
  | ok ty =>
      rw [Graph.arithmetic, bind_of_ok (Graph.view_of_ok hty)]
      exact push _
  | error fault =>
      rw [Graph.arithmetic, bind_of_error (Graph.view_of_error hty)]
      exact .stopped fault []

/-- A call whose argument list is too long stops behind that list. -/
theorem pushCall (node : Span → Node) (args : List NodeId) :
    StoresOne g ((do Graph.push (node (← Graph.pushArgs args)) : Edit NodeId) g) := by
  rcases Graph.pushArgs_cases args g with ⟨span, -, hrun⟩ | ⟨-, hrun⟩ | ⟨-, hrun⟩
  · rw [bind_of_ok hrun]
    exact push_addEntries (node span) args
  · rw [bind_of_error hrun]
    exact .stopped _ args
  · rw [bind_of_error hrun]
    exact .stopped _ []

end StoresOne

/-- A list longer than a span can be stops a call. -/
theorem exists_fault_of_long {g : Graph} (node : Span → Node) {args : List NodeId}
    (hlong : UInt16.size ≤ args.length) :
    ∃ fault h, (do Graph.push (node (← Graph.pushArgs args)) : Edit NodeId) g
      = .error fault h := by
  rcases Graph.pushArgs_cases args g with ⟨span, hargs, -⟩ | ⟨-, hrun⟩ | ⟨-, hrun⟩
  · have hshort := Graph.length_lt_of_args hargs
    omega
  · exact ⟨_, _, bind_of_error hrun⟩
  · exact ⟨_, _, bind_of_error hrun⟩

/-- A missing left operand stops an arithmetic node that has its type from it. -/
theorem arithmetic_of_missing {g : Graph} {op : ArithOp} {left : NodeId}
    (hop : op.isThreeWay = false) (hmissing : g.size ≤ left.index) (right : NodeId) :
    Graph.arithmetic op left right g = .error (.missingNode left) g := by
  have hnone : g.nodes[left.index]? = none := Array.getElem?_eq_none hmissing
  have hread : g.node left = .error (.missingNode left) := by
    rw [Graph.node, hnone]
  have hty : g.arithmeticType op left = .error (.missingNode left) := by
    rw [Graph.arithmeticType, hop, hread]
    rfl
  exact bind_of_error (Graph.view_of_error hty)

/-! ## How builders end -/

namespace Builder

/-- How a builder ends over a graph. -/
inductive Ended (g : Graph) : EStateM.Result Fault Graph Answer → Prop
  | stored (ids : List NodeId) (node : Node) : g.size < UInt32.size →
      Ended g (.ok (.ok (some ⟨.ofNat g.size⟩)) ((g.addEntries ids).addNode node))
  | nothing : Ended g (.ok (.ok none) g)
  | refused (unknown : UnknownOperator) : Ended g (.ok (.error unknown) g)
  | stopped (fault : Fault) (ids : List NodeId) : Ended g (.error fault (g.addEntries ids))

variable {g : Graph}

/-- A step that stores one node ends so, whatever is made of the identifier afterwards. -/
theorem Ended.of_storesOne {x : Edit NodeId} (hx : StoresOne g (x g)) :
    Ended g ((do return .ok (some (← x)) : Edit Answer) g) := by
  generalize hend : x g = result at hx
  cases hx with
  | stored ids node hroom =>
      rw [bind_of_ok hend]
      exact .stored ids node hroom
  | stopped fault ids =>
      rw [bind_of_error hend]
      exact .stopped fault ids

theorem ended_complementOf (id : NodeId) : Ended g ((complementOf id).build g) := by
  rw [build, Graph.complementOf, bind_assoc]
  cases hread : g.node id with
  | error fault =>
      rw [bind_of_error (Graph.view_of_error hread)]
      exact .stopped fault []
  | ok node =>
      rw [bind_of_ok (Graph.view_of_ok hread)]
      cases node.complement? with
      | none => exact .nothing
      | some complement =>
          simp only [bind_assoc, pure_bind]
          exact .of_storesOne (.push complement)

/-- All that a builder can do. -/
theorem ended_build (b : Builder) (g : Graph) : Ended g (b.build g) := by
  cases b with
  | leaf | int | long | double | str | comparison | negation => exact .of_storesOne (.push _)
  | comparisonOfCode code left right =>
      rw [build, Graph.comparisonOfCode]
      cases RelOp.ofCode code with
      | ok op =>
          simp only [bind_assoc, pure_bind]
          exact .of_storesOne (.push _)
      | error unknown => exact .refused unknown
  | arithmetic op left right => exact .of_storesOne (.arithmetic op left right)
  | arithmeticOfCode code left right =>
      rw [build, Graph.arithmeticOfCode]
      cases ArithOp.ofCode code with
      | ok op =>
          simp only [bind_assoc, pure_bind]
          exact .of_storesOne (.arithmetic op left right)
      | error unknown => exact .refused unknown
  | virtualCall sig receiver args ty =>
      exact .of_storesOne (.pushCall (fun span => ⟨.virtualCall sig receiver span, ty⟩) args)
  | staticCall sig args ty =>
      exact .of_storesOne (.pushCall (fun span => ⟨.staticCall sig span, ty⟩) args)
  | complementOf id => exact ended_complementOf id

/-- What a builder is given cannot be built: an argument list longer than a span can be, or an
    arithmetic node with the type of a left operand that is not stored. -/
def Unbuildable (g : Graph) : Builder → Prop
  | virtualCall _ _ args _ | staticCall _ args _ => UInt16.size ≤ args.length
  | arithmetic op left _ => op.isThreeWay = false ∧ g.size ≤ left.index
  | arithmeticOfCode code left _ =>
    ∃ op, ArithOp.ofCode code = .ok op ∧ op.isThreeWay = false ∧ g.size ≤ left.index
  | _ => False

/-- What cannot be built stops the builder, and no node is added. -/
theorem Unbuildable.stops {b : Builder} (h : b.Unbuildable g) :
    ∃ fault h, b.build g = .error fault h ∧ h.nodes = g.nodes := by
  have hstops : ∃ fault h, b.build g = .error fault h := by
    cases b with
    | virtualCall sig receiver args ty =>
        obtain ⟨fault, h, hrun⟩ :=
          exists_fault_of_long (g := g) (fun span => ⟨.virtualCall sig receiver span, ty⟩) h
        exact ⟨fault, h, bind_of_error hrun⟩
    | staticCall sig args ty =>
        obtain ⟨fault, h, hrun⟩ :=
          exists_fault_of_long (g := g) (fun span => ⟨.staticCall sig span, ty⟩) h
        exact ⟨fault, h, bind_of_error hrun⟩
    | arithmetic op left right =>
        exact ⟨_, _, bind_of_error (arithmetic_of_missing h.1 h.2 right)⟩
    | arithmeticOfCode code left right =>
        obtain ⟨op, hcode, hop, hmissing⟩ := h
        have hrun := arithmetic_of_missing hop hmissing right
        rw [build, Graph.arithmeticOfCode, hcode]
        exact ⟨_, _, bind_of_error (bind_of_error hrun)⟩
    | leaf | int | long | double | str | comparison | comparisonOfCode | negation
    | complementOf => cases h
  -- A builder that is stopped has stored an argument list at most.
  obtain ⟨fault, h, hrun⟩ := hstops
  have hended := b.ended_build g
  rw [hrun] at hended
  cases hended with
  | stopped fault ids => exact ⟨fault, _, hrun, rfl⟩

end Builder

end ValueGraph
