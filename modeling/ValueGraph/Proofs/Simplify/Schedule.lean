/-
  ValueGraph.Proofs.Simplify.Schedule

  A pass does its work node by node.

  A pass recurses and remembers; what it does in effect is to process the nodes
  that its root reaches, each of them once, and each after its operands.  Such an
  order is a `Graph.Schedule`.  From a sound root there is one with exactly the
  nodes that the root reaches, and the pass is equal to processing them in that
  order, whether it answers or ends in a fault.  What one step preserves
  therefore holds after a pass (`processAll_induct`).

  That two computations are equal does not tell how often a step has run.  So a
  pass may be watched: it then reports on every node at the moment at which its
  step is done.  What is shown is shown of watched passes (`exists_pass_eq`), and
  a pass that reports nothing is a special case (`watchedPass_silent`).
-/
import ValueGraph.Proofs.Simplify.Step

namespace ValueGraph

open ValueGraph.Graph (Extends)

/-! ## Schedules -/

namespace Graph

/-- The nodes that are finished once those in `order` are finished as well. -/
def after (seen : Set NodeId) (order : List NodeId) : Set NodeId := seen ∪ {id | id ∈ order}

/-- An order in which to process nodes while those in `seen` are finished: no node in it is finished
    before its turn, and its operands are. -/
inductive Schedule (g : Graph) : Set NodeId → List NodeId → Prop
  | nil {seen : Set NodeId} : g.Schedule seen []
  | cons {seen : Set NodeId} {id : NodeId} {ids rest : List NodeId} :
      id ∉ seen → g.children id = .ok ids → (∀ child ∈ ids, child ∈ seen) →
      g.Schedule (insert id seen) rest → g.Schedule seen (id :: rest)

variable {g : Graph} {seen : Set NodeId} {order rest : List NodeId} {id : NodeId}

theorem mem_after : id ∈ after seen order ↔ id ∈ seen ∨ id ∈ order := Iff.rfl

@[simp] theorem after_nil : after seen [] = seen := by
  ext id
  simp [mem_after]

theorem after_cons : after seen (id :: order) = after (insert id seen) order := by
  ext other
  simp only [mem_after, List.mem_cons, Set.mem_insert_iff]
  tauto

theorem after_append : after seen (order ++ rest) = after (after seen order) rest := by
  ext other
  simp only [mem_after, List.mem_append]
  tauto

theorem Schedule.append (h : g.Schedule seen order) (hrest : g.Schedule (after seen order) rest) :
    g.Schedule seen (order ++ rest) := by
  induction h with
  | nil =>
      rw [after_nil] at hrest
      exact hrest
  | cons hfresh hids hseen _ ih =>
      rw [after_cons] at hrest
      exact .cons hfresh hids hseen (ih hrest)

theorem Schedule.not_mem_seen (h : g.Schedule seen order) (hid : id ∈ order) : id ∉ seen := by
  induction h with
  | nil => cases hid
  | cons hfresh _ _ _ ih =>
      rcases List.mem_cons.mp hid with rfl | hid
      · exact hfresh
      · exact fun hseen => ih hid (Set.mem_insert_of_mem _ hseen)

/-- No node is processed twice. -/
theorem Schedule.nodup (h : g.Schedule seen order) : order.Nodup := by
  induction h with
  | nil => exact List.nodup_nil
  | cons _ _ _ hrest ih =>
      exact List.nodup_cons.mpr ⟨fun hid => hrest.not_mem_seen hid (Set.mem_insert ..), ih⟩

/-- The operands of a processed node are finished or processed themselves. -/
theorem Schedule.isOperand_mem (h : g.Schedule seen order) {child : NodeId} (hid : id ∈ order)
    (hchild : g.IsOperand id child) : child ∈ after seen order := by
  induction h with
  | nil => cases hid
  | cons _ hids hseen _ ih =>
      rcases List.mem_cons.mp hid with rfl | hid
      · obtain ⟨ids', hids', hmem⟩ := hchild
        cases hids.symm.trans hids'
        exact Or.inl (hseen child hmem)
      · rw [after_cons]
        exact ih hid

/-- A schedule from nothing has all that its nodes reach. -/
theorem Schedule.reaches_mem (h : g.Schedule ∅ order) {other : NodeId} (hid : id ∈ order)
    (hreach : g.Reaches id other) : other ∈ order := by
  induction hreach with
  | refl => exact hid
  | tail _ hchild ih => exact (h.isOperand_mem ih hchild).resolve_left (Set.notMem_empty _)

end Graph

open ValueGraph.Graph (after mem_after after_nil after_cons after_append)

/-! ## Watched passes -/

namespace Workspace

/-- Reports several events. -/
def reportAll (events : List Event) : Simplify Unit := fun w =>
  .ok () { w with log := w.log.appendList events }

end Workspace

namespace Rules

/-- Reports nothing of any node. -/
def silent : NodeId → List Event := fun _ => []

/-- The image of a node, with a report on every node at the moment at which it is finished. -/
def watchedImageOf (rules : Rules) (watch : NodeId → List Event) :
    (depth : Nat) → NodeId → Simplify NodeId
  | 0, _ => throw .cyclic
  | depth + 1, id => do
    match ← Workspace.image? id with
    | some image => return image
    | none =>
      let renewed ← overImages (rules.watchedImageOf watch depth) id
      let image ← rules.apply renewed
      Workspace.finish id image
      Workspace.reportAll (watch id)
      return image

/-- A pass with such reports. -/
def watchedPass (rules : Rules) (watch : NodeId → List Event) (number : Nat) (root : NodeId) :
    Simplify NodeId := do
  let sizeBefore ← Workspace.beginPass
  let image ← rules.watchedImageOf watch (sizeBefore + 1) root
  Workspace.endPass number sizeBefore
  return image

theorem watchedImageOf_silent (rules : Rules) (depth : Nat) :
    rules.watchedImageOf silent depth = rules.imageOf depth := by
  induction depth with
  | zero => rfl
  | succ depth ih =>
      funext id
      rw [watchedImageOf, imageOf, ih]
      rfl

/-- A pass that reports nothing on its nodes is a pass. -/
theorem watchedPass_silent (rules : Rules) : rules.watchedPass silent = rules.pass := by
  funext number root
  simp only [watchedPass, pass, watchedImageOf_silent]

/-! ## Processing in order -/

/-- Processes nodes one after the other, and reports on each of them. -/
def processAll (rules : Rules) (watch : NodeId → List Event) : List NodeId → Simplify Unit
  | [] => return ()
  | id :: rest => do
    rules.process id
    Workspace.reportAll (watch id)
    rules.processAll watch rest

end Rules

namespace Workspace

/-- The graph has grown from `g`, and the finished nodes are those in `seen`. -/
structure Ready (g : Graph) (seen : Set NodeId) (w : Workspace) : Prop where
  grown : Extends g w.graph
  finished : ∀ id, (∃ image, w.images[id]? = some image) ↔ id ∈ seen

/-- From `w` to `v` the graph has only grown, and no image has changed. -/
structure Later (w v : Workspace) : Prop where
  grown : Extends w.graph v.graph
  images : ∀ id image : NodeId, w.images[id]? = some image → v.images[id]? = some image

theorem Ready.withLog {g : Graph} {seen : Set NodeId} {w : Workspace} (h : w.Ready g seen)
    (log : Array Event) : Ready g seen { w with log := log } :=
  ⟨h.grown, h.finished⟩

theorem Later.refl (w : Workspace) : Later w w := ⟨.refl _, fun _ _ h => h⟩

theorem Later.trans {w v u : Workspace} (hwv : Later w v) (hvu : Later v u) : Later w u :=
  ⟨hwv.grown.trans hvu.grown, fun id image h => hvu.images id image (hwv.images id image h)⟩

end Workspace

open Workspace (Ready Later)

variable {rules : Rules} {watch : NodeId → List Event} {g : Graph} {seen : Set NodeId}
  {w w' : Workspace} {id : NodeId} {order rest ids ids' : List NodeId}

theorem Workspace.Ready.missing (hw : w.Ready g seen) (hid : id ∉ seen) : w.images[id]? = none := by
  cases hfound : w.images[id]? with
  | none => rfl
  | some image => exact absurd ((hw.finished id).mp ⟨image, hfound⟩) hid

namespace Rules

theorem Processed.ready (h : rules.Processed id w w') (hw : w.Ready g seen) :
    w'.Ready g (insert id seen) := by
  obtain ⟨image, himages⟩ := h.images_eq
  refine ⟨hw.grown.trans h.extends, fun other => ?_⟩
  rw [himages, getElem?_insert_images, Set.mem_insert_iff, ← hw.finished]
  by_cases hsame : other = id
  · rw [if_pos hsame]
    exact iff_of_true ⟨image, rfl⟩ (Or.inl hsame)
  · rw [if_neg hsame, or_iff_right hsame]

theorem Processed.later (h : rules.Processed id w w') (hw : w.Ready g seen) (hid : id ∉ seen) :
    w.Later w' := by
  obtain ⟨image, himages⟩ := h.images_eq
  refine ⟨h.extends, fun other old hold => ?_⟩
  rw [himages]
  exact getElem?_insert_of_missing (hw.missing hid) hold

/-- A node of a schedule in its turn: it is not finished, its operands are, and processing it leads
    from `w` to `w'`. -/
structure Turn (rules : Rules) (g : Graph) (seen : Set NodeId) (id : NodeId) (w w' : Workspace) :
    Prop where
  ready : w.Ready g seen
  fresh : id ∉ seen
  operands : ∃ ids, g.children id = .ok ids ∧ ∀ child ∈ ids, child ∈ seen
  processed : rules.Processed id w w'

/-- A node is read in its turn as it was when the pass began. -/
theorem Turn.exists_node (hturn : rules.Turn g seen id w w') :
    ∃ node, g.node id = .ok node ∧ w.graph.node id = .ok node := by
  obtain ⟨ids, hids, -⟩ := hturn.operands
  obtain ⟨node, hnode, -⟩ := Graph.exists_node_of_children hids
  exact ⟨node, hnode, hturn.ready.grown.node_eq_ok hnode⟩

/-- What holds when the nodes in `seen` are finished, and is preserved whenever a node is processed
    in its turn, holds when all the nodes of a schedule are finished as well. -/
theorem processAll_induct {motive : Set NodeId → Workspace → Prop}
    (step : ∀ (seen : Set NodeId) (id : NodeId) (w w' : Workspace), id ∈ order →
      rules.Turn g seen id w w' → motive seen w →
      motive (insert id seen) { w' with log := w'.log.appendList (watch id) })
    (horder : g.Schedule seen order) (hw : w.Ready g seen) (hmotive : motive seen w)
    (hrun : rules.processAll watch order w = .ok () w') : motive (after seen order) w' := by
  induction horder generalizing w with
  | nil =>
      cases hrun
      rw [after_nil]
      exact hmotive
  | @cons seen id ids rest hfresh hids hseen _ ih =>
      obtain ⟨_, w₁, hfirst, h₁⟩ := exists_of_bind_eq_ok hrun
      obtain ⟨_, w₂, hreport, hrest⟩ := exists_of_bind_eq_ok h₁
      cases hreport
      have hprocessed := processed_of_ok hfirst
      have hready := (hprocessed.ready hw).withLog (w₁.log.appendList (watch id))
      rw [after_cons]
      have hnext := step seen id w w₁ (List.mem_cons_self ..)
        ⟨hw, hfresh, ⟨ids, hids, hseen⟩, hprocessed⟩ hmotive
      have hstep := fun seen id w w' hid => step seen id w w' (List.mem_cons_of_mem _ hid)
      exact ih hstep hready hnext hrest

theorem ready_of_processAll (horder : g.Schedule seen order) (hw : w.Ready g seen)
    (hrun : rules.processAll watch order w = .ok () w') : w'.Ready g (after seen order) := by
  refine processAll_induct (motive := fun seen w => w.Ready g seen) ?_ horder hw hw hrun
  intro seen id w w' _ hturn _
  exact (hturn.processed.ready hturn.ready).withLog _

theorem later_of_processAll (horder : g.Schedule seen order) (hw : w.Ready g seen)
    (hrun : rules.processAll watch order w = .ok () w') : w.Later w' := by
  refine processAll_induct (motive := fun _ v => w.Later v) ?_ horder hw (.refl w) hrun
  intro seen id v v' _ hturn hlater
  have hstep := hturn.processed.later hturn.ready hturn.fresh
  exact hlater.trans ⟨hstep.grown, hstep.images⟩

theorem processAll_append (rules : Rules) (watch : NodeId → List Event)
    (order rest : List NodeId) :
    rules.processAll watch (order ++ rest)
      = (rules.processAll watch order >>= fun _ => rules.processAll watch rest) := by
  induction order with
  | nil => rfl
  | cons id order ih =>
      simp only [List.cons_append, processAll, ih, bind_assoc]

/-! ## Steps that process nodes first -/

variable {α β : Type}

/-- A reading of the finished nodes: it answers, changes nothing, and answers the same later. -/
def Steady (g : Graph) (seen : Set NodeId) (y : Simplify α) : Prop :=
  ∀ w : Workspace, w.Ready g seen → ∃ a, ∀ v : Workspace, w.Later v → y v = .ok a v

/-- While the nodes in `seen` are finished, `x` does the same as processing the nodes in `order`,
    which are those below the nodes in `ids` that are not finished yet, and then doing `y`. -/
structure Plan (rules : Rules) (watch : NodeId → List Event) (g : Graph) (seen : Set NodeId)
    (ids : List NodeId) (x y : Simplify α) (order : List NodeId) : Prop where
  schedule : g.Schedule seen order
  finished : ∀ id ∈ ids, id ∈ after seen order
  reached : ∀ other ∈ order, ∃ id ∈ ids, g.Reaches id other
  run_eq : ∀ w, w.Ready g seen → x w = (rules.processAll watch order >>= fun _ => y) w

theorem Plan.none (x : Simplify α) (h : ∀ id ∈ ids, id ∈ seen) :
    rules.Plan watch g seen ids x x [] where
  schedule := .nil
  finished id hid := Or.inl (h id hid)
  reached _ h := nomatch h
  run_eq _ _ := rfl

/-- If two steps agree on what the plan has made ready, one can stand for the other. -/
theorem Plan.congr {x x' y y' : Simplify α} (h : rules.Plan watch g seen ids x y order)
    (hx : ∀ w, w.Ready g seen → x' w = x w)
    (hy : ∀ w, w.Ready g (after seen order) → y' w = y w) :
    rules.Plan watch g seen ids x' y' order where
  schedule := h.schedule
  finished := h.finished
  reached := h.reached
  run_eq w hw := by
    rw [hx w hw, h.run_eq w hw]
    refine bind_eq_bind fun _ w₁ hrun => ?_
    exact (hy w₁ (ready_of_processAll h.schedule hw hrun)).symm

/-- What follows the last step of a plan is left as it is. -/
theorem Plan.bind_last {x y : Simplify α} (h : rules.Plan watch g seen ids x y order)
    (f : α → Simplify β) : rules.Plan watch g seen ids (x >>= f) (y >>= f) order where
  schedule := h.schedule
  finished := h.finished
  reached := h.reached
  run_eq w hw := by
    calc (x >>= f) w
        = ((rules.processAll watch order >>= fun _ => y) >>= f) w := by
          show EStateM.bind x f w = EStateM.bind _ f w
          rw [EStateM.bind, EStateM.bind, h.run_eq w hw]
      _ = (rules.processAll watch order >>= fun _ => y >>= f) w := by rw [bind_assoc]

/-- Two plans one after the other.  What the first one reads in the end can be read after the second
    one just as well. -/
theorem Plan.bind [Inhabited α] {x y : Simplify α} {f f' : α → Simplify β}
    (hx : rules.Plan watch g seen ids x y order) (hy : Steady g (after seen order) y)
    (hf : ∀ a, rules.Plan watch g (after seen order) ids' (f a) (f' a) rest) :
    rules.Plan watch g seen (ids ++ ids') (x >>= f) (y >>= f') (order ++ rest) where
  -- The order of the second plan is the same for every answer of the first, so any will do here.
  schedule := hx.schedule.append (hf default).schedule
  finished id hid := by
    rw [after_append]
    rcases List.mem_append.mp hid with hid | hid
    · exact Or.inl (hx.finished id hid)
    · exact (hf default).finished id hid
  reached other hother := by
    rcases List.mem_append.mp hother with hother | hother
    · obtain ⟨id, hid, hreach⟩ := hx.reached other hother
      exact ⟨id, List.mem_append_left _ hid, hreach⟩
    · obtain ⟨id, hid, hreach⟩ := (hf default).reached other hother
      exact ⟨id, List.mem_append_right _ hid, hreach⟩
  run_eq w hw := by
    rw [processAll_append, bind_assoc, (hx.bind_last f).run_eq w hw]
    refine bind_eq_bind fun _ w₁ hfirst => ?_
    have hw₁ := ready_of_processAll hx.schedule hw hfirst
    -- What `y` answers now it answers again when the nodes of the second plan are processed.
    obtain ⟨a, ha⟩ := hy w₁ hw₁
    rw [bind_of_ok (ha w₁ (.refl w₁)), (hf a).run_eq w₁ hw₁]
    refine bind_eq_bind fun _ w₂ hsecond => ?_
    rw [bind_of_ok (ha w₂ (later_of_processAll (hf a).schedule hw₁ hsecond))]

theorem image?_of_finished {image : NodeId} (h : w.images[id]? = some image) :
    Workspace.image? id w = .ok (some image) w := by
  rw [Workspace.image?, h]

theorem image?_of_not_mem (hw : w.Ready g seen) (hid : id ∉ seen) :
    Workspace.image? id w = .ok none w := by
  rw [Workspace.image?, hw.missing hid]

theorem knownImage_of_finished {image : NodeId} (h : w.images[id]? = some image) :
    knownImage id w = .ok image w := by
  rw [knownImage, bind_of_ok (image?_of_finished h)]
  rfl

theorem steady_knownImage (hid : id ∈ seen) : Steady g seen (knownImage id) := by
  intro w hw
  obtain ⟨image, himage⟩ := (hw.finished id).mpr hid
  exact ⟨image, fun v hv => knownImage_of_finished (hv.images id image himage)⟩

/-! ## The walk of a pass -/

variable {image : NodeId → Simplify NodeId}

/-- Taking the image of `id` processes what is below it first, whatever is finished already. -/
def Walks (rules : Rules) (watch : NodeId → List Event) (g : Graph)
    (image : NodeId → Simplify NodeId) (id : NodeId) : Prop :=
  ∀ seen, ∃ order, rules.Plan watch g seen [id] (image id) (knownImage id) order

/-- The image of one node, and then what else there is to do. -/
theorem Walks.exists_plan_bind (hid : rules.Walks watch g image id)
    {f f' : NodeId → Simplify β} (seen : Set NodeId)
    (hrest : ∀ seen, ∃ rest, ∀ a, rules.Plan watch g seen ids (f a) (f' a) rest) :
    ∃ order, rules.Plan watch g seen (id :: ids) (image id >>= f) (knownImage id >>= f') order := by
  obtain ⟨order, hfirst⟩ := hid seen
  obtain ⟨rest, hlast⟩ := hrest (after seen order)
  have hsteady : Steady g (after seen order) (knownImage id) :=
    steady_knownImage (hfirst.finished id (List.mem_singleton_self _))
  exact ⟨order ++ rest, hfirst.bind hsteady hlast⟩

theorem exists_plan_imagesOf (himage : ∀ id ∈ ids, rules.Walks watch g image id)
    (seen : Set NodeId) :
    ∃ order, rules.Plan watch g seen ids (imagesOf image ids) (imagesOf knownImage ids) order := by
  induction ids generalizing seen with
  | nil => exact ⟨[], .none _ nofun⟩
  | cons first rest ih =>
      refine (himage first (List.mem_cons_self ..)).exists_plan_bind seen fun seen => ?_
      obtain ⟨order, hrest⟩ := ih (fun id hid => himage id (List.mem_cons_of_mem _ hid)) seen
      exact ⟨order, fun a => hrest.bind_last _⟩

theorem exists_plan_imageOfArgs {span : Span} (hargs : g.args span = .ok ids)
    (himage : ∀ id ∈ ids, rules.Walks watch g image id) (seen : Set NodeId) :
    ∃ order,
      rules.Plan watch g seen ids (imageOfArgs image span) (imageOfArgs knownImage span) order := by
  obtain ⟨order, hplan⟩ := exists_plan_imagesOf himage seen
  refine ⟨order, (hplan.bind_last fun new =>
    if new = ids then pure span else Workspace.edit (Graph.pushArgs new)).congr ?_ ?_⟩
  -- The list of the arguments reads the same before and after the nodes below are processed.
  all_goals
    intro w hw
    exact bind_of_ok (Workspace.view_of_ok (hw.grown.args_eq_ok hargs))

theorem exists_plan_imageOfKind {kind : Kind} (hids : g.operandIds kind = .ok ids)
    (himage : ∀ id ∈ ids, rules.Walks watch g image id) (seen : Set NodeId) :
    ∃ order,
      rules.Plan watch g seen ids (imageOfKind image kind) (imageOfKind knownImage kind) order := by
  cases kind with
  | leaf value =>
      cases hids
      exact ⟨[], .none _ nofun⟩
  | comparison op left right | arithmetic op left right =>
      cases hids
      refine (himage left (by simp)).exists_plan_bind seen fun seen => ?_
      obtain ⟨order, hright⟩ := himage right (by simp) seen
      exact ⟨order, fun a => hright.bind_last _⟩
  | negation operand =>
      cases hids
      obtain ⟨order, hoperand⟩ := himage operand (by simp) seen
      exact ⟨order, hoperand.bind_last _⟩
  | virtualCall sig receiver span =>
      obtain ⟨args, hargs, rfl⟩ := Graph.operandIds_virtualCall hids
      refine (himage receiver (List.mem_cons_self ..)).exists_plan_bind seen fun seen => ?_
      obtain ⟨order, hrest⟩ := exists_plan_imageOfArgs hargs
        (fun id hid => himage id (List.mem_cons_of_mem _ hid)) seen
      exact ⟨order, fun a => hrest.bind_last _⟩
  | staticCall sig span =>
      obtain ⟨order, hargs⟩ := exists_plan_imageOfArgs hids himage seen
      exact ⟨order, hargs.bind_last _⟩

theorem exists_plan_overImages {node : Node} (hread : g.node id = .ok node)
    (hids : g.operandIds node.kind = .ok ids)
    (himage : ∀ id ∈ ids, rules.Walks watch g image id) (seen : Set NodeId) :
    ∃ order,
      rules.Plan watch g seen ids (overImages image id) (overImages knownImage id) order := by
  obtain ⟨order, hplan⟩ := exists_plan_imageOfKind hids himage seen
  refine ⟨order, (hplan.bind_last fun kind =>
    if kind = node.kind then pure id else Workspace.edit (Graph.push ⟨kind, node.ty⟩)).congr ?_ ?_⟩
  all_goals
    intro w hw
    exact bind_of_ok (Workspace.view_of_ok (hw.grown.node_eq_ok hread))

/-- The image of a node that has just been processed is what the rules have answered. -/
theorem processAll_bind_knownImage (rules : Rules) (watch : NodeId → List Event) (id : NodeId)
    (w : Workspace) :
    (rules.processAll watch [id] >>= fun _ => knownImage id) w
      = (do
          let renewed ← overImages knownImage id
          let image ← rules.apply renewed
          Workspace.finish id image
          Workspace.reportAll (watch id)
          return image : Simplify NodeId) w := by
  simp only [processAll, process, bind_assoc, pure_bind]
  refine bind_eq_bind fun renewed w₁ _ => bind_eq_bind fun image w₂ _ => ?_
  refine bind_eq_bind fun _ w₃ hfinish => bind_eq_bind fun _ w₄ hreport => ?_
  cases hfinish
  cases hreport
  refine knownImage_of_finished ?_
  rw [getElem?_insert_images, if_pos rfl]

/-- There is nothing to process for a node that is finished. -/
theorem plan_of_finished (rules : Rules) (watch : NodeId → List Event) (g : Graph) (depth : Nat)
    (hseen : id ∈ seen) :
    rules.Plan watch g seen [id] (rules.watchedImageOf watch (depth + 1) id) (knownImage id)
      [] := by
  have hnone : rules.Plan watch g seen [id] (knownImage id) (knownImage id) [] := by
    refine .none _ fun other hother => ?_
    cases List.mem_singleton.mp hother
    exact hseen
  refine hnone.congr (fun w hw => ?_) fun _ _ => rfl
  obtain ⟨image, himage⟩ := (hw.finished id).mpr hseen
  rw [watchedImageOf, bind_of_ok (image?_of_finished himage), knownImage_of_finished himage]
  rfl

/-- For a node that is not finished the nodes below are processed as planned, and then it is. -/
theorem plan_of_operands {depth : Nat} (hchildren : g.children id = .ok ids)
    (hplan : rules.Plan watch g seen ids (overImages (rules.watchedImageOf watch depth) id)
      (overImages knownImage id) order)
    (hfresh : id ∉ after seen order) :
    rules.Plan watch g seen [id] (rules.watchedImageOf watch (depth + 1) id) (knownImage id)
      (order ++ [id]) where
  schedule := hplan.schedule.append (.cons hfresh hchildren hplan.finished .nil)
  finished other hother := by
    cases List.mem_singleton.mp hother
    exact Or.inr (List.mem_append_right _ (List.mem_singleton_self _))
  reached other hother := by
    refine ⟨id, List.mem_singleton_self _, ?_⟩
    rcases List.mem_append.mp hother with hother | hother
    · obtain ⟨child, hchild, hreach⟩ := hplan.reached other hother
      exact (Graph.IsOperand.reaches ⟨ids, hchildren, hchild⟩).trans hreach
    · cases List.mem_singleton.mp hother
      exact g.reaches_self _
  run_eq w hw := by
    -- The look-up fails, and what follows it is the plan for the operands, then the node itself.
    have hmissing := image?_of_not_mem hw fun hseen => hfresh (Or.inl hseen)
    rw [watchedImageOf, bind_of_ok hmissing, processAll_append, bind_assoc]
    refine ((hplan.bind_last _).run_eq w hw).trans (bind_eq_bind fun _ w₁ _ => ?_)
    exact (processAll_bind_knownImage rules watch id w₁).symm

/-- The image of a node that stands for a term is taken by processing the nodes below that are not
    finished, and then the node, if it is not finished either. -/
theorem walks_imageOf (rules : Rules) (watch : NodeId → List Event) {depth : Nat} {t : Term}
    (hid : g.Unfolds id t) (hdepth : t.height ≤ depth) :
    rules.Walks watch g (rules.watchedImageOf watch depth) id := by
  induction t using Term.induct generalizing depth id with
  | node t ih =>
      intro seen
      cases depth with
      | zero => rw [Term.height_eq] at hdepth; omega
      | succ depth =>
          by_cases hseen : id ∈ seen
          · exact ⟨[], plan_of_finished rules watch g depth hseen⟩
          · obtain ⟨ids, hchildren, hunfold⟩ := hid.exists_children
            obtain ⟨node, hread, hids⟩ := Graph.exists_node_of_children hchildren
            have hbelow : ∀ child ∈ ids,
                rules.Walks watch g (rules.watchedImageOf watch depth) child := by
              intro child hchild
              obtain ⟨s, hs, hunfolds⟩ := exists_of_mem_forall₂ hunfold.flip hchild
              have hlower := Term.height_lt_of_mem_operands hs
              exact ih s hs hunfolds (by omega)
            obtain ⟨order, hplan⟩ := exists_plan_overImages hread hids hbelow seen
            -- A node below is not the node itself, since the graph below it has no cycle.
            have hfresh : id ∉ after seen order := by
              rintro (hin | hin)
              · exact hseen hin
              · obtain ⟨child, hchild, hreach⟩ := hplan.reached id hin
                have hsound := Graph.exists_unfolds_iff.mp ⟨t, hid⟩
                exact hsound.acyclic id (g.reaches_self id)
                  (Relation.TransGen.head' ⟨ids, hchildren, hchild⟩ hreach)
            exact ⟨order ++ [id], plan_of_operands hchildren hplan hfresh⟩

/-! ## A whole pass -/

/-- A pass that processes the nodes in a given order. -/
def passInOrder (rules : Rules) (watch : NodeId → List Event) (order : List NodeId) (number : Nat)
    (root : NodeId) : Simplify NodeId := do
  let sizeBefore ← Workspace.beginPass
  rules.processAll watch order
  let image ← knownImage root
  Workspace.endPass number sizeBefore
  return image

variable {root : NodeId}

theorem ready_begun (w : Workspace) :
    Ready w.graph ∅ { w with images := ∅, replaced := 0 } where
  grown := .refl _
  finished id := by
    simp only [Std.TreeMap.getElem?_emptyc, Set.mem_empty_iff_false, iff_false]
    rintro ⟨image, himage⟩
    cases himage

/-- No node is finished when a pass begins. -/
theorem not_finished_begun (w : Workspace) (id image : NodeId) :
    ({ w with images := ∅, replaced := 0 } : Workspace).images[id]? ≠ some image := by
  intro hfound
  exact Set.notMem_empty id (((ready_begun w).finished id).mp ⟨image, hfound⟩)

/-- A pass from a sound root is equal to processing the nodes that the root reaches, each of them
    once and after its operands, and it reports on each of them just then. -/
theorem exists_pass_eq (rules : Rules) (watch : NodeId → List Event) {t : Term}
    (hroot : w.graph.Unfolds root t) (number : Nat) :
    ∃ order, w.graph.Schedule ∅ order ∧ (∀ id, id ∈ order ↔ w.graph.Reaches root id) ∧
      rules.watchedPass watch number root w = rules.passInOrder watch order number root w := by
  have hdepth : t.height ≤ w.graph.size + 1 := Nat.le_succ_of_le hroot.height_le
  obtain ⟨order, hplan⟩ := walks_imageOf rules watch hroot hdepth ∅
  have hrootIn : root ∈ order :=
    (hplan.finished root (List.mem_singleton_self _)).resolve_left (Set.notMem_empty _)
  refine ⟨order, hplan.schedule, fun id => ⟨fun hid => ?_, ?_⟩, ?_⟩
  · obtain ⟨other, hother, hreach⟩ := hplan.reached id hid
    cases List.mem_singleton.mp hother
    exact hreach
  · exact hplan.schedule.reaches_mem hrootIn
  · have hrun := (hplan.bind_last fun image => do
      Workspace.endPass number w.graph.size
      return image).run_eq { w with images := ∅, replaced := 0 } (ready_begun w)
    exact hrun

/-- What a pass that answers has done: it has processed the nodes that the root reaches, and then
    reported that it is over. -/
structure Walked (rules : Rules) (number : Nat) (root : NodeId) (w : Workspace)
    (order : List NodeId) (image : NodeId) (w₁ w' : Workspace) : Prop where
  schedule : w.graph.Schedule ∅ order
  mem_iff : ∀ id, id ∈ order ↔ w.graph.Reaches root id
  processed : rules.processAll silent order { w with images := ∅, replaced := 0 } = .ok () w₁
  answer : w₁.images[root]? = some image
  last : w' = { w₁ with
    log := w₁.log.push (.passed number w₁.replaced (w₁.graph.size - w.graph.size)) }

theorem exists_walked {t : Term} {number : Nat} {image : NodeId}
    (hroot : w.graph.Unfolds root t) (hrun : rules.pass number root w = .ok image w') :
    ∃ order w₁, rules.Walked number root w order image w₁ w' := by
  obtain ⟨order, hschedule, hmem, heq⟩ := exists_pass_eq rules silent hroot number
  rw [← watchedPass_silent, heq] at hrun
  obtain ⟨sizeBefore, w₀, hbegin, h₁⟩ := exists_of_bind_eq_ok hrun
  cases hbegin
  obtain ⟨_, w₁, hall, h₂⟩ := exists_of_bind_eq_ok h₁
  obtain ⟨a, w₂, hknownImage, h₃⟩ := exists_of_bind_eq_ok h₂
  obtain ⟨himage, rfl⟩ := knownImage_eq_ok hknownImage
  cases h₃
  exact ⟨order, w₂, hschedule, hmem, hall, himage, rfl⟩

end Rules

end ValueGraph
