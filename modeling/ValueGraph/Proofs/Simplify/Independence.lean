/-
  ValueGraph.Proofs.Simplify.Independence

  What a run answers depends on the term of its root alone.

  The outcome of a run is a function of its settings and the term of its root.
  Nothing of this mentions the identifiers, how much is shared, or what else the
  graph holds.  So two runs from roots with one term have the same outcome, and
  so has each of several runs in one graph, in whatever order they are done
  (`simplify_independent`).
-/
import ValueGraph.Proofs.Simplify.Run

namespace ValueGraph

open ValueGraph.Graph (Extends Full)

variable {config : Config} {w : Workspace} {t : Term}

/-! ## Several runs in one graph -/

/-- Runs with the given settings from the given roots, one after the other in one graph.  The answer
    that a run has failed does not keep the next one from being done. -/
def simplifyEach : List (Config × NodeId) → Simplify (List (Except RunError NodeId))
  | [] => return []
  | (config, root) :: rest => return (← simplify config root) :: (← simplifyEach rest)

/-- Each of several runs has the outcome that it would have if it were the only one. -/
theorem ends_simplifyEach {requests : List (Config × NodeId)}
    (hroots : ∀ request ∈ requests,
      w.graph.Sound request.2 ∧ w.graph.contains request.2 = true) :
    Ends (simplifyEach requests) w
      (fun answers w' => Extends w.graph w'.graph ∧
        List.Forall₂ (fun request answer => ∀ t, w.graph.Unfolds request.2 t →
          request.1.Outcome t w'.graph answer) requests answers)
      (·.graph.Full) := by
  induction requests generalizing w with
  | nil => exact Ends.pure ⟨.refl _, .nil⟩
  | cons first rest ih =>
      obtain ⟨hsound, hstored⟩ := hroots first (List.mem_cons_self ..)
      obtain ⟨t, hroot⟩ := Graph.exists_unfolds_iff.mpr hsound
      refine (ends_simplify_outcome hroot hstored).bind ?_
      rintro answer w₁ ⟨hgrown₁, houtcome⟩
      -- The other roots are what they were, in the graph that the first run has left.
      have hroots₁ : ∀ request ∈ rest,
          w₁.graph.Sound request.2 ∧ w₁.graph.contains request.2 = true := by
        intro request hmem
        obtain ⟨hsound, hstored⟩ := hroots request (List.mem_cons_of_mem _ hmem)
        exact ⟨hsound.mono hgrown₁, Graph.contains_mono hgrown₁ hstored⟩
      refine (ih hroots₁).bind ?_
      rintro answers w₂ ⟨hgrown₂, houtcomes⟩
      refine Ends.pure ⟨hgrown₁.trans hgrown₂, .cons ?_ ?_⟩
      · intro t' hroot'
        rw [hroot'.unique hroot]
        exact houtcome.mono hgrown₂
      · exact houtcomes.imp fun request answer h t' hroot' => h t' (hroot'.mono hgrown₁)

/-! ## Two runs -/

/-- Two answers that say the same, each with the graph to read it in: nodes with one term, and with
    one text while neither graph is full, or failures after as many passes. -/
inductive SameOutcome (g h : Graph) : Except RunError NodeId → Except RunError NodeId → Prop
  | answered {r r' : NodeId} {t : Term} : g.Unfolds r t → h.Unfolds r' t →
      (g.size < UInt32.size → h.size < UInt32.size → ∀ names,
        ∃ text, g.render names r = .ok text ∧ h.render names r' = .ok text) →
      SameOutcome g h (.ok r) (.ok r')
  | unsettled (passes : UInt32) :
      SameOutcome g h (.error (.unsettled passes)) (.error (.unsettled passes))

/-- Runs with the same settings from roots with one term have the same outcome. -/
theorem Config.Outcome.same {g h : Graph} {x y : Except RunError NodeId}
    (hx : config.Outcome t g x) (hy : config.Outcome t h y) : SameOutcome g h x y := by
  cases hx with
  | answered hsuffices hr =>
      cases hy with
      | answered _ hr' =>
          refine .answered hr hr' fun hg hh names => ⟨(config.simplified t).render names, ?_, ?_⟩
          · rw [Graph.render, hr.unfold_eq hg]
            rfl
          · rw [Graph.render, hr'.unfold_eq hh]
            rfl
      | unsettled hfails => exact absurd hsuffices hfails
  | unsettled hfails =>
      cases hy with
      | answered hsuffices => exact absurd hsuffices hfails
      | unsettled => exact .unsettled config.passes

/-- What a run answers depends on its settings and on the term of its root, and on nothing else of
    the graph or of what was done to it.  Two runs with the same settings, from roots of any two
    graphs that stand for one term, have the same outcome unless one of them fills its graph.  And if
    several roots of a graph are simplified in it one after the other, in any order, with any
    settings, and again after a failure, then each answer is the same as that of a run with the same
    settings alone, from a root of another graph that stands for the same term. -/
theorem simplify_independent (config : Config) (w v : Workspace) (a b : NodeId) (t : Term)
    (ha : w.graph.Unfolds a t) (hastored : w.graph.contains a = true)
    (hb : v.graph.Unfolds b t) (hbstored : v.graph.contains b = true) :
    ((∃ fault w', simplify config a w = .error fault w' ∧ w'.graph.Full) ∨
      (∃ fault v', simplify config b v = .error fault v' ∧ v'.graph.Full) ∨
      ∃ x w' y v', simplify config a w = .ok x w' ∧ simplify config b v = .ok y v' ∧
        SameOutcome w'.graph v'.graph x y) ∧
    ∀ requests : List (Config × NodeId),
      (∀ request ∈ requests, w.graph.Sound request.2 ∧ w.graph.contains request.2 = true) →
      (∃ fault w', simplifyEach requests w = .error fault w' ∧ w'.graph.Full) ∨
        ∃ answers w', simplifyEach requests w = .ok answers w' ∧
          answers.length = requests.length ∧
          ∀ x, ((config, a), x) ∈ requests.zip answers →
            ∀ y v', simplify config b v = .ok y v' → SameOutcome w'.graph v'.graph x y := by
  have hruna : Ends (simplify config a) w _ _ := ends_simplify_outcome ha hastored
  have hrunb : Ends (simplify config b) v _ _ := ends_simplify_outcome hb hbstored
  refine ⟨?_, fun requests hroots => ?_⟩
  · rcases hruna with ⟨x, w', hrun, -, hx⟩ | hfault
    · rcases hrunb with ⟨y, v', hrun', -, hy⟩ | hfault'
      · exact Or.inr (Or.inr ⟨x, w', y, v', hrun, hrun', hx.same hy⟩)
      · exact Or.inr (Or.inl hfault')
    · exact Or.inl hfault
  · rcases ends_simplifyEach hroots with ⟨answers, w', hrun, -, houtcomes⟩ | hfault
    · refine Or.inr ⟨answers, w', hrun, houtcomes.length_eq.symm, fun x hx y v' hrun' => ?_⟩
      have houtcome := List.forall₂_zip houtcomes hx t ha
      exact houtcome.same (hrunb.of_ok hrun').2
    · exact Or.inl hfault

/-- The small graph and the one that shares less have the same outcome, also if the inner comparison
    was simplified first. -/
theorem simplify_independent_sample :
    Graph.sample.contains ⟨3⟩ = true ∧ Graph.unsharedSample.contains ⟨5⟩ = true ∧
      ∃ w' w'' v',
        simplify ⟨.all, 3, true⟩ ⟨3⟩ (.ofGraph .sample) = .ok (.ok ⟨5⟩) w' ∧
        simplifyEach [(⟨.all, 1, false⟩, ⟨2⟩), (⟨.all, 3, true⟩, ⟨3⟩)] (.ofGraph .sample)
          = .ok [.ok ⟨0⟩, .ok ⟨5⟩] w'' ∧
        simplify ⟨.all, 3, true⟩ ⟨5⟩ (.ofGraph .unsharedSample) = .ok (.ok ⟨7⟩) v' ∧
        SameOutcome w'.graph v'.graph (.ok ⟨5⟩) (.ok ⟨7⟩) ∧
        SameOutcome w''.graph v'.graph (.ok ⟨5⟩) (.ok ⟨7⟩) := by
  obtain ⟨hboth, heach⟩ := simplify_independent ⟨.all, 3, true⟩ (.ofGraph .sample)
    (.ofGraph .unsharedSample) ⟨3⟩ ⟨5⟩ _ Graph.sample_unfolds rfl Graph.unsharedSample_unfolds rfl
  have hinner : Graph.sample.Sound ⟨2⟩ := by
    have hoperand : Graph.sample.IsOperand ⟨3⟩ ⟨2⟩ := ⟨_, rfl, List.mem_cons_self ..⟩
    exact Graph.sample_sound.of_reaches hoperand.reaches
  have hroots : ∀ request ∈ [((⟨.all, 1, false⟩, ⟨2⟩) : Config × NodeId), (⟨.all, 3, true⟩, ⟨3⟩)],
      Graph.sample.Sound request.2 ∧ Graph.sample.contains request.2 = true := by
    intro request hmem
    rcases List.mem_pair.mp hmem with rfl | rfl
    · exact ⟨hinner, rfl⟩
    · exact ⟨Graph.sample_sound, rfl⟩
  refine ⟨rfl, rfl, _, _, _, rfl, rfl, rfl, ?_, ?_⟩
  · rcases hboth with ⟨_, _, hrun, -⟩ | ⟨_, _, hrun, -⟩ | ⟨x, w', y, v', hx, hy, hsame⟩
    · cases hrun
    · cases hrun
    · cases hx
      cases hy
      exact hsame
  · rcases heach _ hroots with ⟨_, _, hrun, -⟩ | ⟨answers, w', hrun, -, hsame⟩
    · cases hrun
    · cases hrun
      exact hsame _ (List.mem_cons_of_mem _ (List.mem_cons_self ..)) _ _ rfl

end ValueGraph
