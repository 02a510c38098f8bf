/-
  ValueGraph.Proofs.Simplify.Induction

  The induction on a run.  A run from a stored root reports that it begins, does
  its passes, and concludes from their answer, with a confirming pass if it has
  to settle (`simplify_eq_conclude`); a run from any other root only reports that
  it begins (`simplify_of_unknown`).  So what holds when a run begins and is
  preserved by every pass holds when the run is over, whatever it answers
  (`simplify_induct`).
-/
import ValueGraph.Proofs.Simplify.Ends
import ValueGraph.Simplify.Run

namespace ValueGraph

variable {config : Config} {w w' : Workspace} {root : NodeId}

/-- The state of a run that has only reported that it begins. -/
def Workspace.started (w : Workspace) (config : Config) (root : NodeId) : Workspace :=
  { w with log := w.log.push (.started root config.passLimit) }

/-! ## The parts of a run -/

/-- What a run makes of the answer of its passes. -/
def Config.conclude (config : Config) : NodeId × Bool → Simplify (Except RunError NodeId)
  | (current, settled) => do
    if settled ∨ ¬ config.mustSettle then
      return .ok current
    else
      let image ← config.toRules.pass config.confirmingPass current
      return if image = current then .ok current else .error (.unsettled config.passes)

theorem simplify_eq_ite (config : Config) (root : NodeId) (w : Workspace) :
    simplify config root w
      = (if w.graph.contains root = true
          then config.toRules.passes config.passes.toNat 1 root >>= config.conclude
          else return .error (.unknownRoot root)) (w.started config root) := by
  have hreport : Workspace.report (.started root config.passLimit) w
      = .ok () (w.started config root) := rfl
  have hview : Workspace.view (fun g => .ok (g.contains root)) (w.started config root)
      = .ok (w.graph.contains root) (w.started config root) := rfl
  rw [simplify, bind_of_ok hreport, bind_of_ok hview]
  split <;> rfl

/-- A run from a stored root reports that it begins, does its passes, and concludes. -/
theorem simplify_eq_conclude (hroot : w.graph.contains root = true) :
    simplify config root w
      = (config.toRules.passes config.passes.toNat 1 root >>= config.conclude)
          (w.started config root) := by
  rw [simplify_eq_ite, if_pos hroot]

/-- A run from a root that is not stored fails at once. -/
theorem simplify_of_unknown (hroot : w.graph.contains root = false) :
    simplify config root w = .ok (.error (.unknownRoot root)) (w.started config root) := by
  rw [simplify_eq_ite, hroot]
  rfl

/-! ## Induction -/

namespace Rules

/-- What every pass preserves is preserved by several passes. -/
theorem passes_induct {rules : Rules} {motive : NodeId → Workspace → Prop}
    (step : ∀ (number : Nat) (root image : NodeId) (w w' : Workspace),
      rules.pass number root w = .ok image w' → motive root w → motive image w')
    {count number : Nat} {answer : NodeId × Bool} (hstart : motive root w)
    (hrun : rules.passes count number root w = .ok answer w') : motive answer.1 w' := by
  induction count generalizing root w number with
  | zero =>
      cases hrun
      exact hstart
  | succ count ih =>
      obtain ⟨image, w₁, hpass, h₁⟩ := exists_of_bind_eq_ok hrun
      have himage := step number root image w w₁ hpass hstart
      by_cases hkept : image = root
      · rw [if_pos hkept] at h₁
        cases h₁
        rw [hkept] at himage
        exact himage
      · rw [if_neg hkept] at h₁
        exact ih himage h₁

end Rules

theorem conclude_induct {motive : NodeId → Workspace → Prop}
    (step : ∀ (number : Nat) (root image : NodeId) (w w' : Workspace),
      config.toRules.pass number root w = .ok image w' → motive root w → motive image w')
    {current : NodeId} {settled : Bool} {answer : Except RunError NodeId}
    (hstart : motive current w) (hrun : config.conclude (current, settled) w = .ok answer w') :
    ∃ r, motive r w' ∧ (answer = .ok r ∨
      answer = .error (.unsettled config.passes) ∧ config.mustSettle = true) := by
  rw [Config.conclude] at hrun
  by_cases hdone : settled = true ∨ ¬ config.mustSettle = true
  · rw [if_pos hdone] at hrun
    cases hrun
    exact ⟨current, hstart, Or.inl rfl⟩
  · rw [if_neg hdone] at hrun
    obtain ⟨image, w₁, hpass, h₁⟩ := exists_of_bind_eq_ok hrun
    cases h₁
    -- The confirming pass is a pass like any other, and may have changed the root as well.
    have himage := step _ current image w _ hpass hstart
    by_cases hkept : image = current
    · rw [if_pos hkept]
      exact ⟨image, himage, Or.inl (by rw [hkept])⟩
    · rw [if_neg hkept]
      have hmust : config.mustSettle = true :=
        Decidable.byContradiction fun hfree => hdone (Or.inr hfree)
      exact ⟨image, himage, Or.inr ⟨rfl, hmust⟩⟩

/-- What holds when a run from a stored root begins, and is preserved by every pass, holds when the
    run is over: of the root that it answers, or of the last one if the passes were not enough. -/
theorem simplify_induct {motive : NodeId → Workspace → Prop}
    (step : ∀ (number : Nat) (root image : NodeId) (w w' : Workspace),
      config.toRules.pass number root w = .ok image w' → motive root w → motive image w')
    {answer : Except RunError NodeId} (hstored : w.graph.contains root = true)
    (hstart : motive root (w.started config root)) (hrun : simplify config root w = .ok answer w') :
    ∃ r, motive r w' ∧ (answer = .ok r ∨
      answer = .error (.unsettled config.passes) ∧ config.mustSettle = true) := by
  rw [simplify_eq_conclude hstored] at hrun
  obtain ⟨⟨current, settled⟩, w₁, hpasses, h₁⟩ := exists_of_bind_eq_ok hrun
  exact conclude_induct step (Rules.passes_induct step hstart hpasses) h₁

end ValueGraph
