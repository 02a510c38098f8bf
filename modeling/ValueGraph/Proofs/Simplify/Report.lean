/-
  ValueGraph.Proofs.Simplify.Report

  What a pass reports.

  A pass reports each replacement when it is done, and in the end how many there
  were and how many nodes it has stored (`PassReport.events`).  The number that is
  counted is that of the replacements that are reported (`Walked.exists_reports`).

  A report without a replacement means that there was nothing to do.  The
  invariant is `Workspace.Intact`: as long as nothing has been replaced, every
  finished node is canonical, and its image stands for the same term.  A step that
  replaces nothing preserves it (`Turn.intact`), so a pass that replaces nothing
  has found its root canonical, and it keeps a canonical root.  Whether anything
  was replaced and whether the root has changed are therefore the same question
  (`ends_pass_reports`).
-/
import ValueGraph.Proofs.Simplify.Schedule
import ValueGraph.Proofs.Simplify.Trail

namespace ValueGraph

open ValueGraph.Graph (Extends Labels after)

/-- A replacement as it is reported: the rule, the node that was replaced, and the node that now
    stands in its place. -/
structure Rewrite where
  rule : RuleName
  source : NodeId
  target : NodeId
deriving DecidableEq

/-- The event that reports a replacement. -/
def Rewrite.event (rewrite : Rewrite) : Event :=
  .replaced rewrite.rule rewrite.source rewrite.target

/-- What a pass has to report: its number, its replacements in order, and how many nodes it has
    stored. -/
structure PassReport where
  number : Nat
  rewrites : List Rewrite
  stored : Nat
deriving DecidableEq

/-- The events of a pass: one for each replacement, and then a summary with their number. -/
def PassReport.events (report : PassReport) : List Event :=
  report.rewrites.map Rewrite.event
    ++ [.passed report.number report.rewrites.length report.stored]

/-- What a report says of the pass from `root` over `g` is so: there is such a pass, it has stored
    so many nodes, and it has replaced none exactly if it has kept its root. -/
structure PassReport.Describes (report : PassReport) (rules : Rules) (g : Graph) (root : NodeId)
    (h : Graph) (image : NodeId) : Prop where
  passOn_eq : rules.passOn g root = some (image, h)
  size_eq : h.size = g.size + report.stored
  rewrites_eq_nil_iff : report.rewrites = [] ↔ image = root

/-! ## Counting -/

namespace Workspace

/-- Since the log was `log`, exactly the given replacements have been reported and counted. -/
structure Reports (log : Array Event) (rewrites : List Rewrite) (w : Workspace) : Prop where
  log_eq : w.log.toList = log.toList ++ rewrites.map Rewrite.event
  replaced_eq : w.replaced = rewrites.length

variable {log : Array Event} {rewrites : List Rewrite} {w : Workspace}

theorem Reports.none (w : Workspace) : Reports w.log [] { w with images := ∅, replaced := 0 } where
  log_eq := by simp
  replaced_eq := rfl

/-- One more replacement is reported and counted. -/
theorem Reports.record (hw : w.Reports log rewrites) (rewrite : Rewrite) (g : Graph)
    (images : Std.TreeMap NodeId NodeId) :
    Reports log (rewrites ++ [rewrite])
      ⟨g, images, w.replaced + 1, w.log.push rewrite.event⟩ where
  log_eq := by simp [hw.log_eq]
  replaced_eq := by simp [hw.replaced_eq]

end Workspace

namespace Rules

variable {rules : Rules} {g : Graph} {seen : Set NodeId} {w w' w₁ : Workspace}
  {id root image : NodeId} {order : List NodeId} {number : Nat} {t : Term}
  {log : Array Event} {rewrites : List Rewrite}

theorem Processed.exists_reports (hprocessed : rules.Processed id w w')
    (hw : w.Reports log rewrites) : ∃ more, w'.Reports log (rewrites ++ more) := by
  cases hprocessed with
  | @intro _ _ _ renewed image h _ _ _ _ _ happlied =>
      cases happlied with
      | none =>
          refine ⟨[], ?_, ?_⟩
          · simpa using hw.log_eq
          · simpa using hw.replaced_eq
      | @some _ firing _ h' =>
          have hrecord := hw.record ⟨firing.rule, renewed, image⟩ h' w.images
          exact ⟨_, hrecord.log_eq, hrecord.replaced_eq⟩

/-- The replacements that a pass has counted are those that it has reported. -/
theorem Walked.exists_reports (hwalked : rules.Walked number root w order image w₁ w') :
    ∃ rewrites, w₁.Reports w.log rewrites := by
  refine processAll_induct (motive := fun _ v => ∃ rewrites, v.Reports w.log rewrites) ?_
    hwalked.schedule (ready_begun w) ⟨[], .none w⟩ hwalked.processed
  rintro seen id v v' - hturn ⟨rewrites, hv⟩
  obtain ⟨more, hv'⟩ := hturn.processed.exists_reports hv
  exact ⟨rewrites ++ more, hv'.log_eq, hv'.replaced_eq⟩

/-- What a pass has added to the log. -/
theorem Walked.log_eq (hwalked : rules.Walked number root w order image w₁ w')
    (hreports : w₁.Reports w.log rewrites) :
    w'.log.toList = w.log.toList
      ++ PassReport.events ⟨number, rewrites, w₁.graph.size - w.graph.size⟩ := by
  rw [hwalked.last, PassReport.events, ← List.append_assoc, ← hreports.log_eq,
    ← hreports.replaced_eq]
  exact Array.toList_push

end Rules

/-! ## Passes that replace nothing -/

namespace Graph

variable {g h : Graph} {id renewed : NodeId} {node : Node} {kind kind' : Kind}
  {news : List NodeId} {ty : Ty} {t : Term}

theorem Rebuilds.labels (hrebuilds : g.Rebuilds kind news kind' h)
    (hlabels : Labels ⟨kind, ty⟩ t) : Labels ⟨kind', ty⟩ t := by
  cases hrebuilds with
  | leaf => exact hlabels
  | comparison => cases hlabels; exact .comparison
  | arithmetic => cases hlabels; exact .arithmetic
  | negation => cases hlabels; exact .negation
  | virtualCall => cases hlabels; exact .virtualCall
  | staticCall => cases hlabels; exact .staticCall

/-- A node over other operands stands for its label over what these stand for. -/
theorem Renews.unfolds (hrenews : g.Renews id node news renewed h) (hread : g.node id = .ok node)
    (hlabels : Labels node t) (hnews : List.Forall₂ g.Unfolds news t.operands) :
    h.Unfolds renewed t := by
  obtain ⟨kind, _, hread', hrebuilds, hids⟩ := hrenews.exists_node hread
  refine .stored hread' (spells_iff.mpr ⟨hrebuilds.labels hlabels, news, hids, ?_⟩)
  exact forall₂_unfolds_mono hrenews.extends hnews

end Graph

/-- As long as nothing has been replaced, every finished node is canonical, and its image stands for
    the same term. -/
def Workspace.Intact (rules : Rules) (g : Graph) (w : Workspace) : Prop :=
  w.replaced = 0 → ∀ id image, w.images[id]? = some image →
    ∃ t, g.Unfolds id t ∧ w.graph.Unfolds image t ∧ rules.Canonical t

namespace Rules

variable {rules : Rules} {g : Graph} {seen : Set NodeId} {w w' w₁ : Workspace}
  {id root image : NodeId} {order ids news : List NodeId} {number : Nat} {t : Term}
  {ts : List Term}

theorem unfolds_images_of_intact (hw : w.Intact rules g) (hzero : w.replaced = 0)
    (hnews : List.Forall₂ (fun old new => w.images[old]? = some new) ids news)
    (hids : List.Forall₂ g.Unfolds ids ts) :
    List.Forall₂ w.graph.Unfolds news ts ∧ ∀ s ∈ ts, rules.Canonical s := by
  induction hnews generalizing ts with
  | nil =>
      cases hids
      exact ⟨.nil, by simp⟩
  | cons hnew _ ih =>
      cases hids with
      | @cons _ s _ rest hs hrest =>
          obtain ⟨s', hold, himage, hcanonical⟩ := hw hzero _ _ hnew
          cases hold.unique hs
          obtain ⟨hnews, hall⟩ := ih hrest
          refine ⟨.cons himage hnews, fun other hother => ?_⟩
          rcases List.mem_cons.mp hother with rfl | hother
          · exact hcanonical
          · exact hall other hother

theorem step?_eq_none_of_nodeRule (hunfolds : g.Unfolds id t)
    (hrule : g.nodeRule rules.methods rules.groups id = .ok none) : rules.step? t = none := by
  obtain ⟨answer, hanswer, hagrees⟩ := Graph.nodeRule_agrees hunfolds rules
  cases hanswer.symm.trans hrule
  generalize rules.step? t = next at hagrees
  cases hagrees
  rfl

/-- A step that replaces nothing leaves the term of its node, and shows it to be canonical. -/
theorem Turn.intact (hturn : rules.Turn g seen id w w') (hunfolds : g.Unfolds id t)
    (hw : w.Intact rules g) : w'.Intact rules g := by
  have hlater := hturn.processed.later hturn.ready hturn.fresh
  cases hturn.processed with
  | @intro node ids news renewed image h _ hnode hids hnews hrenews happlied =>
      cases happlied with
      | some => exact fun hzero => absurd hzero (Nat.succ_ne_zero _)
      | none hrule =>
          intro hzero
          -- The node is the one that was stored when the pass began, over the same operands.
          obtain ⟨hread, hspells⟩ := hunfolds
          obtain ⟨hlabels, ids', hids', hall⟩ := Graph.spells_iff.mp hspells
          cases (hturn.ready.grown.node_eq_ok hread).symm.trans hnode
          cases (Graph.operandIds_mono hturn.ready.grown hids').symm.trans hids
          obtain ⟨himages, hcanonical⟩ := unfolds_images_of_intact hw hzero hnews hall
          have hrenewed : h.Unfolds renewed t := hrenews.unfolds hnode hlabels himages
          have hstep : rules.step? t = none := step?_eq_none_of_nodeRule hrenewed hrule
          have hdone : rules.Canonical t := canonical_iff.mpr ⟨hstep, hcanonical⟩
          dsimp only
          refine forall_insert_images ⟨t, .stored hread hspells, hrenewed, hdone⟩ ?_
          intro other new hfound
          obtain ⟨s, hold, hnew, hs⟩ := hw hzero other new hfound
          exact ⟨s, hold, hnew.mono hlater.grown, hs⟩

/-- If a pass has replaced nothing, there was nothing to do. -/
theorem Walked.canonical_of_replaced_eq_zero (hroot : w.graph.Unfolds root t)
    (hwalked : rules.Walked number root w order image w₁ w') (hzero : w₁.replaced = 0) :
    rules.Canonical t := by
  have hintact : w₁.Intact rules w.graph := by
    refine processAll_induct (motive := fun _ v => v.Intact rules w.graph) ?_ hwalked.schedule
      (ready_begun w) ?_ hwalked.processed
    · intro seen id v v' hid hturn hv
      obtain ⟨s, -, hunfolds⟩ := hroot.of_reaches ((hwalked.mem_iff id).mp hid)
      exact hturn.intact hunfolds hv
    · intro _ id new hfound
      exact absurd hfound (not_finished_begun w id new)
  obtain ⟨s, hs, -, hcanonical⟩ := hintact hzero root image hwalked.answer
  cases hs.unique hroot
  exact hcanonical

/-! ## What a pass reports -/

/-- A pass that answers reports its replacements and a summary, and what it reports is so. -/
theorem exists_report (hroot : w.graph.Unfolds root t)
    (hpass : rules.pass number root w = .ok image w') :
    ∃ report : PassReport, report.number = number ∧
      w'.log.toList = w.log.toList ++ report.events ∧
      report.Describes rules w.graph root w'.graph image := by
  obtain ⟨order, w₁, hwalked⟩ := exists_walked hroot hpass
  obtain ⟨rewrites, hreports⟩ := hwalked.exists_reports
  have hsame_iff := ((ends_pass_rewrites hroot number).of_ok hpass).same_iff
  have hgrown : Extends w.graph w₁.graph :=
    (later_of_processAll hwalked.schedule (ready_begun w) hwalked.processed).grown
  have hlast := hwalked.last
  refine ⟨⟨number, rewrites, w₁.graph.size - w.graph.size⟩, rfl, hwalked.log_eq hreports,
    passOn_of_pass hpass, ?_, ?_⟩
  · have hsize := hgrown.size_le
    rw [hlast]
    show w₁.graph.size = w.graph.size + (w₁.graph.size - w.graph.size)
    omega
  · rw [hsame_iff]
    show rewrites = [] ↔ rules.Canonical t
    constructor
    · intro hnone
      have hzero : w₁.replaced = 0 := by rw [hreports.replaced_eq, hnone, List.length_nil]
      exact hwalked.canonical_of_replaced_eq_zero hroot hzero
    · intro hcanonical
      -- Such a pass counts nothing, and what is counted is what is reported.
      obtain ⟨images, hquiet⟩ := pass_of_canonical hroot hcanonical number
      cases hpass.symm.trans hquiet
      have hzero : w₁.replaced = 0 := (congrArg Workspace.replaced hlast).symm
      exact List.eq_nil_of_length_eq_zero (hreports.replaced_eq.symm.trans hzero)

theorem ends_pass_reports (hroot : w.graph.Unfolds root t) (number : Nat) :
    Ends (rules.pass number root) w
      (fun image w' => (∃ t', w'.graph.Unfolds image t') ∧
        ∃ report : PassReport, report.number = number ∧
          w'.log.toList = w.log.toList ++ report.events ∧
          report.Describes rules w.graph root w'.graph image)
      (·.graph.Full) := by
  rcases ends_pass hroot number with ⟨image, w', hrun, -, -, himage⟩ | hfault
  · exact Or.inl ⟨image, w', hrun, ⟨_, himage⟩, exists_report hroot hrun⟩
  · exact Or.inr hfault

end Rules

end ValueGraph
