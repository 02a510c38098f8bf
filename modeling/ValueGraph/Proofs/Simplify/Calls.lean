/-
  ValueGraph.Proofs.Simplify.Calls

  One pass is enough for the calls.

  A call that can be read as a comparison is read as one when its turn comes, and
  no rule makes a call; so after a pass with the rule for methods the term of the
  root has no such call in it, at whatever depth it was and whatever else was
  rewritten around it.  Later passes make none either, whichever groups of rules
  they apply: they finish no such call, and what they replace they replace by the
  rule for comparisons (`pass_removes_calls`).
-/
import ValueGraph.Proofs.Graph.Showing
import ValueGraph.Proofs.Simplify.Report
import ValueGraph.Proofs.Simplify.Succession

namespace ValueGraph

namespace Graph

/-- No node that a root reaches is a call of a method in the table with an argument. -/
def CallFree (g : Graph) (methods : MethodTable) (root : NodeId) : Prop :=
  ∀ id, g.Reaches root id → ¬ g.Shows (Node.isComparingCall methods) id

variable {g h : Graph} {rules : Rules} {root : NodeId} {kind kind' : Kind} {news : List NodeId}
  {firing : Firing} {t : Term}

theorem callFree_iff {methods : MethodTable} (hroot : g.Unfolds root t) :
    g.CallFree methods root ↔ t.Lacks (Term.isComparingCall methods) :=
  hroot.lacks_iff fun _ _ hspells => hspells.isComparingCall_eq methods

/-- A node over other operands has as many arguments as before, so it is such a call if it was. -/
theorem Rebuilds.isComparingCall_eq (hrebuilds : g.Rebuilds kind news kind' h)
    (methods : MethodTable) (ty : Ty) :
    Node.isComparingCall methods ⟨kind', ty⟩ = Node.isComparingCall methods ⟨kind, ty⟩ := by
  cases hrebuilds with
  | @virtualCall _ _ _ span span' _ _ hlength hlists =>
      show (_ && span'.size != 0) = (_ && span.size != 0)
      rw [← length_of_args hlists.reads, hlength]
  | leaf | comparison | arithmetic | negation | staticCall => rfl

/-- The rule for methods is for such calls only. -/
theorem Fires.isComparingCall (hfires : g.Fires rules kind firing) (hrule : firing.rule = .method)
    (ty : Ty) : Node.isComparingCall rules.methods ⟨kind, ty⟩ = true := by
  cases hfires with
  | @method _ _ _ _ _ span _ hfind hargs =>
      show (_ && span.size != 0) = true
      rw [hfind, ← length_of_args hargs]
      rfl
  | fold | leftZero | swap | rightZero => cases hrule

end Graph

/-- From `w` to `w'` a pass has met no call of a method in the table with an argument: it has
    finished none, no image is one, and the rule for methods has replaced nothing. -/
structure MeetsNoCall (methods : MethodTable) (w w' : Workspace) : Prop where
  finished : ∀ id new : NodeId, w'.images[id]? = some new →
    ¬ w.graph.Shows (Node.isComparingCall methods) id ∧
      ¬ w'.graph.Shows (Node.isComparingCall methods) new
  reported : ∃ report : PassReport, w'.log.toList = w.log.toList ++ report.events ∧
    ∀ rewrite ∈ report.rewrites, rewrite.rule = .comparison

namespace Rules

variable {rules : Rules} {w w' w₁ : Workspace} {id root image : NodeId} {order : List NodeId}
  {number : Nat} {t : Term} {log : Array Event} {rewrites : List Rewrite}

/-- Processing a node that is no such call replaces nothing by the rule for methods. -/
theorem Processed.reports_comparison (hprocessed : rules.Processed id w w')
    (hcall : ¬ w.graph.Shows (Node.isComparingCall rules.methods) id)
    (hw : w.Reports log rewrites) (hrewrites : ∀ rewrite ∈ rewrites, rewrite.rule = .comparison) :
    ∃ rewrites', w'.Reports log rewrites' ∧
      ∀ rewrite ∈ rewrites', rewrite.rule = .comparison := by
  cases hprocessed with
  | @intro node ids news renewed image h _ hnode _ _ hrenews happlied =>
      cases happlied with
      | none => exact ⟨rewrites, ⟨hw.log_eq, hw.replaced_eq⟩, hrewrites⟩
      | @some node' firing _ h' hread hfires =>
          have hrule : firing.rule = .comparison := by
            cases hmethod : firing.rule with
            | comparison => rfl
            | method =>
                -- The node that the rule has read is the one over the images.
                obtain ⟨kind, h₁, hread', hrebuilds, -⟩ := hrenews.exists_node hnode
                cases hread.symm.trans hread'
                have hshown := hfires.isComparingCall hmethod node.ty
                rw [hrebuilds.isComparingCall_eq] at hshown
                exact absurd ⟨node, hnode, hshown⟩ hcall
          refine ⟨_, hw.record ⟨firing.rule, renewed, image⟩ h' (w.images.insert id image), ?_⟩
          intro rewrite hmem
          rcases List.mem_append.mp hmem with hold | hnew
          · exact hrewrites rewrite hold
          · cases List.mem_singleton.mp hnew
            exact hrule

theorem Walked.reports_comparison (hwalked : rules.Walked number root w order image w₁ w')
    (hfree : w.graph.CallFree rules.methods root) :
    ∃ rewrites, w₁.Reports w.log rewrites ∧
      ∀ rewrite ∈ rewrites, rewrite.rule = .comparison := by
  refine processAll_induct (motive := fun _ v => ∃ rewrites, v.Reports w.log rewrites ∧
    ∀ rewrite ∈ rewrites, rewrite.rule = .comparison) ?_
    hwalked.schedule (ready_begun w) ⟨[], .none w, nofun⟩ hwalked.processed
  rintro seen id v v' hid hturn ⟨rewrites, hv, hrewrites⟩
  refine hturn.processed.reports_comparison ?_ hv hrewrites
  -- A node is read in its turn as it was when the pass began.
  obtain ⟨node, hread, hread'⟩ := hturn.exists_node
  rintro ⟨other, hother, hshown⟩
  cases hread'.symm.trans hother
  exact hfree id ((hwalked.mem_iff id).mp hid) ⟨node, hread, hshown⟩

/-- A pass from a root without such calls meets none. -/
theorem ends_pass_meetsNoCall (rules : Rules) (hroot : w.graph.Unfolds root t)
    (hterm : t.Lacks (Term.isComparingCall rules.methods)) (number : Nat) :
    Ends (rules.pass number root) w (fun _ w' => MeetsNoCall rules.methods w w')
      (·.graph.Full) := by
  rcases ends_pass_finishes hroot number with ⟨image, w', hrun, hfinishes⟩ | hfault
  · refine Or.inl ⟨image, w', hrun, ?_, ?_⟩
    · intro id new hnew
      obtain ⟨hreach, s, hid, himage⟩ := hfinishes.of_image id new hnew
      obtain ⟨s', hinside, hid'⟩ := hroot.of_reaches hreach
      cases hid.unique hid'
      have hs := hterm.of_mem_subterms hinside
      have hfree := (Graph.callFree_iff hid).mpr hs
      have hfree' := (Graph.callFree_iff himage).mpr (lacks_isComparingCall_rewrite hs rules)
      exact ⟨hfree id (Graph.reaches_self _ id), hfree' new (Graph.reaches_self _ new)⟩
    · obtain ⟨order, w₁, hwalked⟩ := exists_walked hroot hrun
      obtain ⟨rewrites, hreports, hrules⟩ :=
        hwalked.reports_comparison ((Graph.callFree_iff hroot).mpr hterm)
      exact ⟨_, hwalked.log_eq hreports, hrules⟩
  · exact Or.inr hfault

end Rules

/-- One pass with the rule for methods is enough for all calls.  From a sound root it answers a node
    that reaches no call of a method in the table with an argument.  Wherever later passes lead from
    there, whatever groups of rules each of them applies and whatever is stored in between, there is
    no such call either, and the next pass meets none.  Only a full graph can stop any of them. -/
theorem pass_removes_calls (rules : Rules) (hmethods : rules.groups.methods = true) (number : Nat)
    (w : Workspace) (root : NodeId) (hsound : w.graph.Sound root) :
    Ends (rules.pass number root) w
      (fun image w' => w'.graph.CallFree rules.methods image ∧
        ∀ (h : Graph) (r : NodeId), PassesLead rules.methods w'.graph image h r →
          h.CallFree rules.methods r ∧
          ∀ (groups : RuleGroups) (later : Nat) (v : Workspace), v.graph = h →
            Ends (Rules.pass ⟨rules.methods, groups⟩ later r) v
              (fun _ v' => MeetsNoCall rules.methods v v') (·.graph.Full))
      (·.graph.Full) := by
  obtain ⟨t, hroot⟩ := Graph.exists_unfolds_iff.mpr hsound
  refine (Rules.ends_pass_rewrites hroot number).mono ?_
  rintro image w' ⟨himage, -, -⟩
  have hterm := Rules.lacks_isComparingCall_of_methods hmethods t
  refine ⟨(Graph.callFree_iff himage).mpr hterm, fun h r hlead => ?_⟩
  obtain ⟨s, hr, hs⟩ := hlead.exists_unfolds (motive := Term.Lacks _)
    (fun groups _ hs => Rules.lacks_isComparingCall_rewrite hs ⟨_, groups⟩) himage hterm
  refine ⟨(Graph.callFree_iff hr).mpr hs, ?_⟩
  rintro groups later v rfl
  exact Rules.ends_pass_meetsNoCall ⟨_, groups⟩ hr hs later

/-- The call below the comparison with zero is gone after one pass, and a second one finds none. -/
theorem pass_removes_calls_sample :
    Graph.equalsSample.Sound ⟨4⟩ ∧
      Graph.equalsSample.Shows (Node.isComparingCall .standard) ⟨2⟩ ∧
      ∃ image w', Rules.pass ⟨.standard, .all⟩ 1 ⟨4⟩ (.ofGraph .equalsSample) = .ok image w' ∧
        w'.graph.CallFree .standard image ∧
        Ends (Rules.pass ⟨.standard, .none⟩ 2 image) w'
          (fun _ v' => MeetsNoCall .standard w' v') (·.graph.Full) := by
  have hsound := Graph.exists_unfolds_iff.mp ⟨_, Graph.equalsSample_unfolds⟩
  refine ⟨hsound, ⟨_, rfl, by decide⟩, ?_⟩
  rcases pass_removes_calls ⟨.standard, .all⟩ rfl 1 (.ofGraph .equalsSample) ⟨4⟩ hsound with
    ⟨image, w', hrun, hfree, hlater⟩ | ⟨fault, w', hrun, -⟩
  · exact ⟨image, w', hrun, hfree, (hlater _ _ .none).2 .none 2 w' rfl⟩
  · cases hrun

end ValueGraph
