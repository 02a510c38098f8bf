/-
  ValueGraph.Proofs.Graph.Preorder

  Reading the unfolding of a node from left to right, every node before what is
  below it.

  `Graph.Preorder` says what is read: a node occurs as often as there are paths
  to it.  Every sound root has exactly one reading (`exists_preorder`,
  `Preorder.unique`), and what occurs in it is what the root reaches
  (`Preorder.reaches`).

  Some of what is read no rule may touch: every leaf but the integers, arithmetic
  other than three-way compares, and every call but those of the comparing
  methods.  These are the landmarks.  `Graph.HasLandmarks` gives the sequence of
  those that a list of nodes has, in a graph in which no comparing method is
  called with more than the one argument that it compares with.
-/
import ValueGraph.MethodTable
import ValueGraph.Proofs.Graph.Unfolding

namespace ValueGraph

/-! ## Landmarks -/

/-- A stored node where it is read. -/
structure Occurrence where
  id : NodeId
  node : Node
deriving DecidableEq

/-- A part of an unfolding that no rule may touch.  A leaf stays the very same node; of an operator
    or a call the operator or the method and the type of the result stay. -/
inductive Landmark where
  | leaf (id : NodeId) (value : Leaf) (ty : Ty)
  | arithmetic (op : ArithOp) (ty : Ty)
  | virtualCall (sig : Signature) (ty : Ty)
  | staticCall (sig : Signature) (ty : Ty)
deriving DecidableEq

/-- The landmark that an occurrence is, if it is one; the table has the comparing methods. -/
def Occurrence.landmark? (methods : MethodTable) (o : Occurrence) : Option Landmark :=
  match o.node.kind with
  | .leaf (.int _) | .comparison _ _ _ | .negation _ => none
  | .leaf value => some (.leaf o.id value o.node.ty)
  | .arithmetic op _ _ => if op.isThreeWay then none else some (.arithmetic op o.node.ty)
  | .virtualCall sig _ _ =>
    if (methods.find? sig).isSome then none else some (.virtualCall sig o.node.ty)
  | .staticCall sig _ => some (.staticCall sig o.node.ty)

/-- The landmarks of a reading, in order. -/
def landmarks (methods : MethodTable) (occurrences : List Occurrence) : List Landmark :=
  occurrences.filterMap (·.landmark? methods)

/-- A call of a comparing method has no argument but the one that it compares with. -/
def Kind.Narrow (methods : MethodTable) : Kind → Prop
  | .virtualCall sig _ span => (methods.find? sig).isSome = true → span.size ≤ 1
  | _ => True

namespace Graph

/-! ## Readings -/

/-- What is read off the unfoldings of a list of nodes, from left to right. -/
inductive Preorder (g : Graph) : List NodeId → List Occurrence → Prop
  | nil : g.Preorder [] []
  | cons {id : NodeId} {ids children : List NodeId} {node : Node} {below rest : List Occurrence} :
      g.node id = .ok node → g.operandIds node.kind = .ok children →
      g.Preorder children below → g.Preorder ids rest →
      g.Preorder (id :: ids) (⟨id, node⟩ :: (below ++ rest))

variable {g h : Graph} {methods : MethodTable} {id root : NodeId} {ids : List NodeId} {node : Node}
  {occurrences rest : List Occurrence}

theorem Preorder.unique {occurrences' : List Occurrence} (hread : g.Preorder ids occurrences)
    (hread' : g.Preorder ids occurrences') : occurrences = occurrences' := by
  induction hread generalizing occurrences' with
  | nil =>
      cases hread'
      rfl
  | cons hnode hids _ _ ihBelow ihRest =>
      cases hread' with
      | cons hnode' hids' hbelow' hrest' =>
          cases hnode.symm.trans hnode'
          cases hids.symm.trans hids'
          rw [ihBelow hbelow', ihRest hrest']

theorem Preorder.mono (hread : g.Preorder ids occurrences) (hgrown : Extends g h) :
    h.Preorder ids occurrences := by
  induction hread with
  | nil => exact .nil
  | cons hnode hids _ _ ihBelow ihRest =>
      exact .cons (hgrown.node_eq_ok hnode) (operandIds_mono hgrown hids) ihBelow ihRest

theorem Preorder.append {ids' : List NodeId} {occurrences' : List Occurrence}
    (hread : g.Preorder ids occurrences) (hread' : g.Preorder ids' occurrences') :
    g.Preorder (ids ++ ids') (occurrences ++ occurrences') := by
  induction hread with
  | nil => exact hread'
  | cons hnode hids hbelow _ _ ihRest =>
      rw [List.cons_append, List.cons_append, List.append_assoc]
      exact .cons hnode hids hbelow ihRest

/-- Only stored nodes occur, and only those that are reached. -/
theorem Preorder.reaches (hread : g.Preorder ids occurrences) {o : Occurrence}
    (ho : o ∈ occurrences) : g.node o.id = .ok o.node ∧ ∃ id ∈ ids, g.Reaches id o.id := by
  induction hread with
  | nil => cases ho
  | cons hnode hids _ _ ihBelow ihRest =>
      rcases List.mem_cons.mp ho with rfl | ho
      · exact ⟨hnode, _, List.mem_cons_self .., g.reaches_self _⟩
      · rcases List.mem_append.mp ho with ho | ho
        · obtain ⟨hstored, child, hchild, hreach⟩ := ihBelow ho
          have hbelow : g.IsOperand _ child := ⟨_, (children_of_node hnode).trans hids, hchild⟩
          exact ⟨hstored, _, List.mem_cons_self .., hbelow.reaches.trans hreach⟩
        · obtain ⟨hstored, other, hother, hreach⟩ := ihRest ho
          exact ⟨hstored, other, List.mem_cons_of_mem _ hother, hreach⟩

theorem exists_preorder_of_forall (h : ∀ id ∈ ids, ∃ below, g.Preorder [id] below) :
    ∃ below, g.Preorder ids below := by
  induction ids with
  | nil => exact ⟨[], .nil⟩
  | cons id ids ih =>
      obtain ⟨first, hfirst⟩ := h id (List.mem_cons_self ..)
      obtain ⟨others, hothers⟩ := ih fun id hid => h id (List.mem_cons_of_mem _ hid)
      exact ⟨first ++ others, hfirst.append hothers⟩

/-- A node that stands for a term can be read. -/
theorem Unfolds.exists_preorder {t : Term} (hid : g.Unfolds id t) :
    ∃ occurrences, g.Preorder [id] occurrences := by
  induction t using Term.induct generalizing id with
  | node t ih =>
      obtain ⟨hnode, hspells⟩ := hid
      obtain ⟨children, hids, hall⟩ := hspells.operandIds
      have hchildren : ∀ child ∈ children, ∃ below, g.Preorder [child] below := by
        intro child hchild
        obtain ⟨s, hs, hunfolds⟩ := exists_of_mem_forall₂ hall.flip hchild
        exact ih s hs hunfolds
      obtain ⟨below, hbelow⟩ := exists_preorder_of_forall hchildren
      exact ⟨_, .cons hnode hids hbelow .nil⟩

/-! ## The landmarks of a list of nodes -/

/-- The landmarks of the unfoldings of a list of nodes, if all calls below are narrow. -/
def HasLandmarks (g : Graph) (methods : MethodTable) (ids : List NodeId) (marks : List Landmark) :
    Prop :=
  ∃ occurrences, g.Preorder ids occurrences ∧
    (∀ o ∈ occurrences, o.node.kind.Narrow methods) ∧ landmarks methods occurrences = marks

variable {marks marks' below : List Landmark}

theorem HasLandmarks.unique (h : g.HasLandmarks methods ids marks)
    (h' : g.HasLandmarks methods ids marks') : marks = marks' := by
  obtain ⟨occurrences, hread, -, rfl⟩ := h
  obtain ⟨occurrences', hread', -, rfl⟩ := h'
  rw [hread.unique hread']

theorem HasLandmarks.mono (hlandmarks : g.HasLandmarks methods ids marks) (hgrown : Extends g h) :
    h.HasLandmarks methods ids marks := by
  obtain ⟨occurrences, hread, hnarrow, hmarks⟩ := hlandmarks
  exact ⟨occurrences, hread.mono hgrown, hnarrow, hmarks⟩

theorem hasLandmarks_nil : g.HasLandmarks methods [] [] := ⟨[], .nil, nofun, rfl⟩

/-- The landmarks of several nodes are those of the first and then those of the others. -/
theorem hasLandmarks_cons_iff :
    g.HasLandmarks methods (id :: ids) marks ↔
      ∃ first others, g.HasLandmarks methods [id] first ∧ g.HasLandmarks methods ids others ∧
        marks = first ++ others := by
  constructor
  · rintro ⟨_, hread, hnarrow, rfl⟩
    cases hread with
    | @cons _ _ _ node below rest hnode hids hbelow hrest =>
        -- The reading of the first node alone is the node, what is below it, and nothing else.
        refine ⟨landmarks methods (⟨id, node⟩ :: (below ++ [])), landmarks methods rest,
          ⟨_, .cons hnode hids hbelow .nil, fun o ho => hnarrow o ?_, rfl⟩,
          ⟨rest, hrest, fun o ho => hnarrow o ?_, rfl⟩, ?_⟩
        · rw [List.append_nil] at ho
          exact List.mem_append_left rest ho
        · exact List.mem_cons_of_mem _ (List.mem_append_right below ho)
        · rw [landmarks, landmarks, landmarks, ← List.filterMap_append, List.append_nil,
            List.cons_append]
  · rintro ⟨_, _, ⟨first, hfirst, hnarrow, rfl⟩, ⟨others, hothers, hnarrow', rfl⟩, rfl⟩
    refine ⟨first ++ others, hfirst.append hothers, fun o ho => ?_, List.filterMap_append⟩
    rcases List.mem_append.mp ho with ho | ho
    · exact hnarrow o ho
    · exact hnarrow' o ho

/-- The landmarks of a stored node are itself, if it is one, and those of its operands. -/
theorem hasLandmarks_singleton_iff (hnode : g.node id = .ok node)
    (hids : g.operandIds node.kind = .ok ids) :
    g.HasLandmarks methods [id] marks ↔ node.kind.Narrow methods ∧
      ∃ below, g.HasLandmarks methods ids below ∧
        marks = (Occurrence.landmark? methods ⟨id, node⟩).toList ++ below := by
  have hcons : ∀ below : List Occurrence, landmarks methods (⟨id, node⟩ :: below)
      = (Occurrence.landmark? methods ⟨id, node⟩).toList ++ landmarks methods below := by
    intro below
    rw [landmarks, List.filterMap_cons]
    cases Occurrence.landmark? methods ⟨id, node⟩ <;> rfl
  constructor
  · rintro ⟨_, hread, hnarrow, rfl⟩
    cases hread with
    | @cons _ _ _ _ below _ hnode' hids' hbelow hrest =>
        cases hrest
        cases hnode.symm.trans hnode'
        cases hids.symm.trans hids'
        rw [List.append_nil] at hnarrow ⊢
        exact ⟨hnarrow _ (List.mem_cons_self ..), _,
          ⟨below, hbelow, fun o ho => hnarrow o (List.mem_cons_of_mem _ ho), rfl⟩, hcons below⟩
  · rintro ⟨hself, _, ⟨below, hbelow, hnarrow, rfl⟩, rfl⟩
    refine ⟨⟨id, node⟩ :: (below ++ []), .cons hnode hids hbelow .nil, fun o ho => ?_, ?_⟩
    · rw [List.append_nil] at ho
      rcases List.mem_cons.mp ho with rfl | ho
      · exact hself
      · exact hnarrow o ho
    · rw [List.append_nil, hcons]

/-- A node that has landmarks is stored, and its operands have landmarks. -/
theorem HasLandmarks.exists_node (hlandmarks : g.HasLandmarks methods [id] marks) :
    ∃ node ids, g.node id = .ok node ∧ g.operandIds node.kind = .ok ids ∧
      node.kind.Narrow methods ∧ ∃ below, g.HasLandmarks methods ids below ∧
        marks = (Occurrence.landmark? methods ⟨id, node⟩).toList ++ below := by
  have ⟨occurrences, hread, _, _⟩ := hlandmarks
  cases hread with
  | cons hnode hids _ _ =>
      exact ⟨_, _, hnode, hids, (hasLandmarks_singleton_iff hnode hids).mp hlandmarks⟩

theorem HasLandmarks.of_mem (hlandmarks : g.HasLandmarks methods ids marks) (hid : id ∈ ids) :
    ∃ marks, g.HasLandmarks methods [id] marks := by
  induction ids generalizing marks with
  | nil => cases hid
  | cons first ids ih =>
      obtain ⟨_, _, hfirst, hothers, rfl⟩ := hasLandmarks_cons_iff.mp hlandmarks
      rcases List.mem_cons.mp hid with rfl | hid
      · exact ⟨_, hfirst⟩
      · exact ih hothers hid

/-- What is reached from a node that has landmarks has landmarks. -/
theorem HasLandmarks.of_reaches (hlandmarks : g.HasLandmarks methods [root] marks)
    (hreach : g.Reaches root id) : ∃ marks, g.HasLandmarks methods [id] marks := by
  induction hreach with
  | refl => exact ⟨marks, hlandmarks⟩
  | tail _ hchild ih =>
      obtain ⟨_, hparent⟩ := ih
      obtain ⟨node, ids, hnode, hids, -, below, hbelow, -⟩ := hparent.exists_node
      obtain ⟨ids', hids', hmem⟩ := hchild
      cases hids'.symm.trans ((children_of_node hnode).trans hids)
      exact hbelow.of_mem hmem

/-- A sound root below which all calls are narrow has landmarks. -/
theorem Unfolds.exists_hasLandmarks {t : Term} (hroot : g.Unfolds root t)
    (hnarrow : ∀ id node, g.Reaches root id → g.node id = .ok node → node.kind.Narrow methods) :
    ∃ marks, g.HasLandmarks methods [root] marks := by
  obtain ⟨occurrences, hread⟩ := hroot.exists_preorder
  refine ⟨_, occurrences, hread, fun o ho => ?_, rfl⟩
  obtain ⟨hstored, id, hid, hreach⟩ := hread.reaches ho
  rw [List.mem_singleton.mp hid] at hreach
  exact hnarrow o.id o.node hreach hstored

end Graph

end ValueGraph
