/-
  ValueGraph.Proofs.Simplify.Run

  Runs of passes, on the terms that the roots stand for.

    * One pass rewrites the term of the root; it keeps the root exactly if that
      term is canonical (`ends_pass_rewrites`).
    * Several passes rewrite it again and again.  Rewriting leaves a canonical
      term as it is, so it makes no difference to the term whether passes stop
      early: after up to `n` of them the root stands for the term rewritten `n`
      times (`ends_passes`).
    * So the outcome of a run is a function of its settings and the term of its
      root (`ends_simplify_outcome`), unless the graph is full.  If the passes
      were too few, then they were fewer than the term weighs (`ends_simplify`).
-/
import ValueGraph.Proofs.Simplify.Induction
import ValueGraph.Proofs.Simplify.Quiet
import ValueGraph.Proofs.Term.Weight

namespace ValueGraph

open ValueGraph.Graph (Extends Full)

namespace Rules

variable {rules : Rules} {w : Workspace} {root : NodeId} {t : Term}

/-- What a pass from a root that stands for `t` does. -/
structure Passed (rules : Rules) (t : Term) (root : NodeId) (w : Workspace) (image : NodeId)
    (w' : Workspace) : Prop where
  term : w'.graph.Unfolds image (rules.rewrite t)
  grown : Extends w.graph w'.graph
  same_iff : image = root ↔ rules.Canonical t

theorem ends_pass_rewrites (hroot : w.graph.Unfolds root t) (number : Nat) :
    Ends (rules.pass number root) w (rules.Passed t root w) (·.graph.Full) := by
  by_cases hcanonical : rules.Canonical t
  · obtain ⟨images, hrun⟩ := pass_of_canonical hroot hcanonical number
    refine Or.inl ⟨root, _, hrun, ?_, .refl _, iff_of_true rfl hcanonical⟩
    rw [hcanonical.rewrite_eq]
    exact hroot
  · refine (ends_pass hroot number).mono ?_
    rintro image w' ⟨-, hgrown, himage⟩
    refine ⟨himage, hgrown, iff_of_false ?_ hcanonical⟩
    -- The same root would stand for the term before and after the pass.
    rintro rfl
    exact hcanonical (canonical_iff_rewrite_eq.mpr (himage.unique (hroot.mono hgrown)))

/-- Up to `count` passes rewrite the term `count` times. -/
theorem ends_passes (hroot : w.graph.Unfolds root t) (count number : Nat) :
    Ends (rules.passes count number root) w
      (fun answer w' => Extends w.graph w'.graph ∧
        w'.graph.Unfolds answer.1 (rules.rewrite^[count] t) ∧
        (answer.2 = true → rules.Canonical (rules.rewrite^[count] t)))
      (·.graph.Full) := by
  induction count generalizing root t w number with
  | zero => exact Ends.pure ⟨.refl _, hroot, Bool.noConfusion⟩
  | succ count ih =>
      refine (ends_pass_rewrites hroot number).bind ?_
      rintro image w₁ ⟨himage, hgrown₁, hsame⟩
      by_cases hkept : image = root
      · -- The passes that are not done any more would not change the term.
        rw [if_pos hkept]
        have hcanonical := hsame.mp hkept
        have hfixed : rules.rewrite^[count + 1] t = t :=
          Function.iterate_fixed hcanonical.rewrite_eq (count + 1)
        rw [hcanonical.rewrite_eq, hkept] at himage
        rw [hfixed]
        exact Ends.pure ⟨hgrown₁, himage, fun _ => hcanonical⟩
      · rw [if_neg hkept]
        refine (ih himage (number + 1)).mono ?_
        rintro answer w₂ ⟨hgrown₂, hterm, hsettled⟩
        rw [Function.iterate_succ_apply]
        exact ⟨hgrown₁.trans hgrown₂, hterm, hsettled⟩

end Rules

/-! ## A whole run -/

namespace Config

/-- What a run makes of the term of its root. -/
def simplified (config : Config) (t : Term) : Term := config.toRules.rewrite^[config.passes.toNat] t

/-- The passes that settings allow leave nothing to do, or need not. -/
def Suffices (config : Config) (t : Term) : Prop :=
  config.mustSettle = true → config.toRules.Canonical (config.simplified t)

/-- What a run from a root that stands for `t` has to answer, with the graph that it leaves. -/
inductive Outcome (config : Config) (t : Term) (g : Graph) : Except RunError NodeId → Prop
  | answered {r : NodeId} : config.Suffices t → g.Unfolds r (config.simplified t) →
      Outcome config t g (.ok r)
  | unsettled : ¬ config.Suffices t → Outcome config t g (.error (.unsettled config.passes))

theorem Outcome.mono {config : Config} {t : Term} {g h : Graph} {answer : Except RunError NodeId}
    (houtcome : config.Outcome t g answer) (hgrown : Extends g h) : config.Outcome t h answer := by
  cases houtcome with
  | answered hsuffices hr => exact .answered hsuffices (hr.mono hgrown)
  | unsettled hfails => exact .unsettled hfails

/-- What is concluded from the passes is decided by the term that they leave. -/
theorem ends_conclude_outcome {config : Config} {w : Workspace} {t : Term}
    {answer : NodeId × Bool} (hterm : w.graph.Unfolds answer.1 (config.simplified t))
    (hsettled : answer.2 = true → config.toRules.Canonical (config.simplified t)) :
    Ends (config.conclude answer) w
      (fun answer w' => Extends w.graph w'.graph ∧ config.Outcome t w'.graph answer)
      (·.graph.Full) := by
  obtain ⟨current, settled⟩ := answer
  rw [conclude]
  by_cases hdone : settled = true ∨ ¬ config.mustSettle = true
  · rw [if_pos hdone]
    refine Ends.pure ⟨.refl _, .answered (fun hmust => ?_) hterm⟩
    exact hsettled (hdone.resolve_right fun hfree => hfree hmust)
  · rw [if_neg hdone]
    have hmust : config.mustSettle = true := by
      by_contra hfree
      exact hdone (Or.inr hfree)
    -- The confirming pass keeps the root exactly if the term is canonical.
    refine (Rules.ends_pass_rewrites hterm config.confirmingPass).bind ?_
    rintro image w' ⟨-, hgrown, hsame⟩
    by_cases hkept : image = current
    · rw [if_pos hkept]
      exact Ends.pure ⟨hgrown, .answered (fun _ => hsame.mp hkept) (hterm.mono hgrown)⟩
    · rw [if_neg hkept]
      exact Ends.pure ⟨hgrown, .unsettled fun hsuffices => hkept (hsame.mpr (hsuffices hmust))⟩

end Config

variable {config : Config} {w : Workspace} {root : NodeId} {t : Term}

/-- The outcome of a run is a function of its settings and the term of its root. -/
theorem ends_simplify_outcome (hroot : w.graph.Unfolds root t)
    (hstored : w.graph.contains root = true) :
    Ends (simplify config root) w
      (fun answer w' => Extends w.graph w'.graph ∧ config.Outcome t w'.graph answer)
      (·.graph.Full) := by
  have hroot' : (w.started config root).graph.Unfolds root t := hroot
  rw [Ends, simplify_eq_conclude hstored]
  refine (Rules.ends_passes hroot' config.passes.toNat 1).bind ?_
  rintro answer w₁ ⟨hgrown₁, hterm, hsettled⟩
  refine (Config.ends_conclude_outcome hterm hsettled).mono ?_
  rintro result w₂ ⟨hgrown₂, houtcome⟩
  exact ⟨hgrown₁.trans hgrown₂, houtcome⟩

/-! ## What can go wrong -/

/-- What a run from a root that stands for `t` answers. -/
def Answers (config : Config) (t : Term) (w : Workspace) (answer : Except RunError NodeId)
    (w' : Workspace) : Prop :=
  match answer with
  | .ok r => Extends w.graph w'.graph ∧
      ∃ k, w'.graph.Unfolds r (config.toRules.rewrite^[k] t) ∧
        (config.mustSettle = true → config.toRules.Canonical (config.toRules.rewrite^[k] t))
  | .error (.unsettled passes) =>
      passes = config.passes ∧ config.mustSettle = true ∧ config.passes.toNat < t.weight
  | .error _ => w'.graph.Full

/-- A stored node that no valid identifier names is the last one of a full graph. -/
theorem Graph.full_of_contains_eq_false {g : Graph} {id : NodeId} (h : g.contains id = false)
    (hid : id.index < g.size) : g.Full := by
  rw [contains, Bool.and_eq_false_iff] at h
  rcases h with hinvalid | houtside
  · have hlast : id = NodeId.invalid := by
      simpa [NodeId.isValid] using hinvalid
    subst hlast
    exact Or.inl hid
  · exact absurd hid (by simpa using houtside)

theorem Graph.contains_mono {g h : Graph} (hgrown : Extends g h) {id : NodeId}
    (hid : g.contains id = true) : h.contains id = true := by
  rw [contains, Bool.and_eq_true, decide_eq_true_eq] at hid ⊢
  exact ⟨hid.1, Nat.lt_of_lt_of_le hid.2 hgrown.size_le⟩

/-- A run from a root that stands for a term answers, or fails for want of passes, unless the graph
    is full. -/
theorem ends_simplify (hroot : w.graph.Unfolds root t) :
    Ends (simplify config root) w (Answers config t w) (·.graph.Full) := by
  cases hstored : w.graph.contains root with
  | false =>
      refine Or.inl ⟨.error (.unknownRoot root), _, simplify_of_unknown hstored, ?_⟩
      exact Graph.full_of_contains_eq_false hstored hroot.index_lt
  | true =>
      refine (ends_simplify_outcome hroot hstored).mono ?_
      rintro answer w' ⟨hgrown, houtcome⟩
      cases houtcome with
      | answered hsuffices hr => exact ⟨hgrown, config.passes.toNat, hr, hsuffices⟩
      | unsettled hfails =>
          obtain ⟨hmust, hcanonical⟩ := Classical.not_imp.mp hfails
          have hheavy := Rules.weight_iterate_add_le hcanonical
          have hpos := (config.toRules.rewrite^[config.passes.toNat] t).weight_pos
          exact ⟨rfl, hmust, by omega⟩

end ValueGraph
