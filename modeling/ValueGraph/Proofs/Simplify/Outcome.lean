/-
  ValueGraph.Proofs.Simplify.Outcome

  The exact outcome of a run.

  If consecutive passes come to rest after `k` of them and the settings allow
  `n`, then the passes of a run answer what the first `min k n` of them answer
  (`passes_of_rests`).  The run answers that root, unless it has to settle and
  `n < k` (`simplify_of_rests`, `simplify_unsettled`).  A run from a root at which
  passes are at rest answers that root and stores nothing, so it makes no
  difference how often a settled root is simplified again, nor with which limits.
-/
import ValueGraph.Proofs.Simplify.Induction
import ValueGraph.Proofs.Simplify.Settled
import ValueGraph.Proofs.Simplify.Trail

namespace ValueGraph

open ValueGraph.Graph (Extends)

namespace Rules

variable {rules : Rules} {w : Workspace} {g : Graph} {root : NodeId} {t : Term} {k : Nat}

/-- A pass that keeps its root leaves the graph as it was. -/
theorem graph_eq_of_pass_eq_root {number : Nat} {w' : Workspace} (hroot : w.graph.Unfolds root t)
    (hpass : rules.pass number root w = .ok root w') : w'.graph = w.graph := by
  have hcanonical : rules.Canonical t := canonical_of_pass_eq_root hroot hpass
  obtain ⟨images, hrun⟩ := pass_of_canonical hroot hcanonical number
  rw [hpass] at hrun
  cases hrun
  rfl

/-- Passes are at rest at a root exactly if its term is canonical. -/
theorem rests_zero_iff (hroot : g.Unfolds root t) :
    rules.Rests g root 0 ↔ rules.Canonical t := by
  have hroot' : (Workspace.ofGraph g).graph.Unfolds root t := hroot
  constructor
  · intro hrests
    obtain ⟨h, hpass⟩ := keepsAt_zero.mp hrests.keepsAt
    obtain ⟨w', hrun, -⟩ := exists_pass_of_passOn (w := .ofGraph g) hpass 1
    exact canonical_of_pass_eq_root hroot' hrun
  · intro hcanonical
    obtain ⟨images, hrun⟩ := pass_of_canonical hroot' hcanonical 1
    have hpass := passOn_of_pass hrun
    exact rests_zero hpass

/-- Up to `count` passes of a run follow the trail until it comes to rest; whether it has done so
    before the passes were used up is the second part of the answer. -/
theorem passes_of_rests (hroot : w.graph.Unfolds root t) (hrests : rules.Rests w.graph root k)
    (count number : Nat) :
    ∃ r w', rules.passes count number root w = .ok (r, decide (k < count)) w' ∧
      rules.trail w.graph root (min k count) = some (r, w'.graph) ∧
      rules.Rests w'.graph r (k - count) ∧ ∃ t', w'.graph.Unfolds r t' := by
  induction count generalizing root w t k number with
  | zero =>
      refine ⟨root, w, ?_, ?_, hrests, t, hroot⟩
      · rw [decide_eq_false (Nat.not_lt_zero k)]
        rfl
      · rw [Nat.min_zero]
        rfl
  | succ count ih =>
      obtain ⟨image, h, hpassOn⟩ := exists_passOn_of_rests hrests
      obtain ⟨w₁, hpass, rfl⟩ := exists_pass_of_passOn hpassOn number
      have hpasses : rules.passes (count + 1) number root w
          = (if image = root then pure (root, true)
              else rules.passes count (number + 1) image) w₁ :=
        bind_of_ok hpass
      by_cases hkept : image = root
      · -- The first pass keeps the root, so the trail is at rest where it begins.
        subst hkept
        have hsame : w₁.graph = w.graph := graph_eq_of_pass_eq_root hroot hpass
        obtain rfl := hrests.eq_zero hpassOn
        refine ⟨image, w₁, ?_, ?_, ?_, t, ?_⟩
        · rw [hpasses, if_pos rfl, decide_eq_true (Nat.succ_pos count)]
          rfl
        · rw [Nat.zero_min, hsame]
          rfl
        · rw [Nat.zero_sub, hsame]
          exact hrests
        · rw [hsame]
          exact hroot
      · -- The first pass changes the root, and the others follow the rest of the trail.
        obtain ⟨k, rfl, hrest⟩ := hrests.exists_succ hpassOn hkept
        have himage := ((ends_pass_rewrites hroot number).of_ok hpass).term
        obtain ⟨r, w', hrun, htrail, hrests', hr⟩ := ih himage hrest (number + 1)
        refine ⟨r, w', ?_, ?_, ?_, hr⟩
        · rw [hpasses, if_neg hkept, hrun]
          simp only [Nat.add_lt_add_iff_right]
        · rw [Nat.add_min_add_right, trail_succ hpassOn, htrail]
        · rw [Nat.add_sub_add_right]
          exact hrests'

end Rules

/-! ## A whole run -/

section Run

variable {config : Config} {w : Workspace} {root : NodeId} {t : Term} {k : Nat}

/-- A run answers what the trail of passes answers after as many of them as are allowed, or as it
    takes to come to rest, if that is enough or no matter. -/
theorem simplify_of_rests (hroot : w.graph.Unfolds root t)
    (hstored : w.graph.contains root = true) (hrests : config.toRules.Rests w.graph root k)
    (henough : config.mustSettle = false ∨ k ≤ config.passes.toNat) :
    ∃ r w', simplify config root w = .ok (.ok r) w' ∧
      config.toRules.trail w.graph root (min k config.passes.toNat) = some (r, w'.graph) := by
  have hroot' : (w.started config root).graph.Unfolds root t := hroot
  obtain ⟨r, w', hpasses, htrail, hrest, t', hr⟩ :=
    Rules.passes_of_rests hroot' hrests config.passes.toNat 1
  rw [simplify_eq_conclude hstored, bind_of_ok hpasses, Config.conclude]
  by_cases hdone : decide (k < config.passes.toNat) = true ∨ ¬ config.mustSettle = true
  · rw [if_pos hdone]
    exact ⟨r, w', rfl, htrail⟩
  · rw [if_neg hdone]
    -- The passes allowed were just enough, and the next one has nothing to do.
    have hlast : k ≤ config.passes.toNat := by
      rcases henough with hfree | hle
      · exact absurd (Or.inr (by rw [hfree]; exact Bool.false_ne_true)) hdone
      · exact hle
    rw [Nat.sub_eq_zero_of_le hlast] at hrest
    have hcanonical := (Rules.rests_zero_iff hr).mp hrest
    obtain ⟨images, hconfirm⟩ := Rules.pass_of_canonical hr hcanonical config.confirmingPass
    rw [bind_of_ok hconfirm, if_pos rfl]
    exact ⟨r, _, rfl, htrail⟩

/-- A run that has to settle fails if the passes allowed are fewer than it takes to come to rest. -/
theorem simplify_unsettled (hroot : w.graph.Unfolds root t)
    (hstored : w.graph.contains root = true) (hrests : config.toRules.Rests w.graph root k)
    (hmust : config.mustSettle = true) (hfew : config.passes.toNat < k) :
    ∃ w', simplify config root w = .ok (.error (.unsettled config.passes)) w' := by
  have hroot' : (w.started config root).graph.Unfolds root t := hroot
  obtain ⟨r, w', hpasses, -, hrest, t', hr⟩ :=
    Rules.passes_of_rests hroot' hrests config.passes.toNat 1
  have hnotDone : ¬ (decide (k < config.passes.toNat) = true ∨ ¬ config.mustSettle = true) := by
    rw [decide_eq_true_eq]
    rintro (hlt | hfree)
    · omega
    · exact hfree hmust
  rw [simplify_eq_conclude hstored, bind_of_ok hpasses, Config.conclude, if_neg hnotDone]
  -- One pass more changes the root again.
  obtain ⟨image, h, hpassOn⟩ := Rules.exists_passOn_of_rests hrest
  obtain ⟨w₁, hconfirm, -⟩ := Rules.exists_pass_of_passOn hpassOn config.confirmingPass
  have hchanged : image ≠ r := by
    rintro rfl
    have hnone := hrest.eq_zero hpassOn
    omega
  rw [bind_of_ok hconfirm, if_neg hchanged]
  exact ⟨w₁, rfl⟩

/-- The outcome of a run from a sound root.  Passes come to rest after some number `k` of them,
    unless the graph becomes full on the way.  The run then answers the root after `min k n` passes,
    where `n` is the number of passes allowed, and leaves the graph as it is after that many; only
    if it has to settle and `n < k` it fails.  The graph contains the root after these passes,
    unless it is full.  If `k ≤ n`, then later runs from there with the same rules, whatever their
    limits are and whatever has been stored meanwhile, answer the root that they are given and store
    nothing. -/
theorem simplify_outcome (config : Config) (w : Workspace) (root : NodeId)
    (hsound : w.graph.Sound root) (hstored : w.graph.contains root = true) :
    ((∃ k, config.toRules.Rests w.graph root k) ∨
      ∃ i r h fault w', config.toRules.trail w.graph root i = some (r, h) ∧
        config.toRules.pass 1 r (.ofGraph h) = .error fault w' ∧ w'.graph.Full) ∧
    ∀ k, config.toRules.Rests w.graph root k →
      ∃ r h, config.toRules.trail w.graph root (min k config.passes.toNat) = some (r, h) ∧
        (h.contains r = true ∨ h.Full) ∧
        (config.mustSettle = false ∨ k ≤ config.passes.toNat →
          ∃ w', simplify config root w = .ok (.ok r) w' ∧ w'.graph = h) ∧
        (config.mustSettle = true → config.passes.toNat < k →
          ∃ w', simplify config root w = .ok (.error (.unsettled config.passes)) w') ∧
        (k ≤ config.passes.toNat → h.contains r = true → ∀ (later : Config) (v : Workspace),
          later.groups = config.groups → Extends h v.graph →
          ∃ v', simplify later r v = .ok (.ok r) v' ∧ v'.graph = v.graph) := by
  obtain ⟨t, hroot⟩ := Graph.exists_unfolds_iff.mpr hsound
  refine ⟨Rules.exists_rests hroot, fun k hrests => ?_⟩
  obtain ⟨r, w₁, -, htrail, hrest, t', hr⟩ :=
    Rules.passes_of_rests hroot hrests config.passes.toNat 1
  refine ⟨r, w₁.graph, htrail, ?_, fun henough => ?_, ?_, ?_⟩
  · cases hcontained : w₁.graph.contains r with
    | true => exact Or.inl rfl
    | false => exact Or.inr (Graph.full_of_contains_eq_false hcontained hr.index_lt)
  · obtain ⟨r', w', hrun, htrail'⟩ := simplify_of_rests hroot hstored hrests henough
    rw [htrail] at htrail'
    obtain ⟨rfl, hgraph⟩ := Prod.mk.inj (Option.some.inj htrail')
    exact ⟨w', hrun, hgraph.symm⟩
  · exact simplify_unsettled hroot hstored hrests
  · intro hle hcontained later v hgroups hgrown
    -- The answer stands for a canonical term, now and in every larger graph.
    rw [Nat.sub_eq_zero_of_le hle] at hrest
    have hcanonical := (Rules.rests_zero_iff hr).mp hrest
    have hrules : later.toRules = config.toRules := by
      rw [Config.toRules, Config.toRules, hgroups]
    have hlater : v.graph.Unfolds r t' := hr.mono hgrown
    have hrests' : later.toRules.Rests v.graph r 0 := by
      rw [hrules]
      exact (Rules.rests_zero_iff hlater).mpr hcanonical
    obtain ⟨r', v', hrun, htrail'⟩ :=
      simplify_of_rests hlater (Graph.contains_mono hgrown hcontained) hrests'
        (Or.inr (Nat.zero_le _))
    rw [Nat.zero_min] at htrail'
    obtain ⟨rfl, hgraph⟩ := Prod.mk.inj (Option.some.inj htrail')
    exact ⟨v', hrun, hgraph.symm⟩

/-- In the small graph the first pass changes the root and the second keeps it, so the single pass
    that a limit of zero allows is just enough for a run that has to settle. -/
theorem simplify_outcome_sample :
    Graph.sample.Sound ⟨3⟩ ∧ Graph.sample.contains ⟨3⟩ = true ∧
      Rules.Rests ⟨.standard, .all⟩ Graph.sample ⟨3⟩ 1 ∧
      ∃ w', simplify ⟨.all, 0, true⟩ ⟨3⟩ (.ofGraph .sample) = .ok (.ok ⟨5⟩) w' ∧
        ∃ v', simplify ⟨.all, 7, false⟩ ⟨5⟩ w' = .ok (.ok ⟨5⟩) v' ∧ v'.graph = w'.graph := by
  have hrests : Rules.Rests ⟨.standard, .all⟩ Graph.sample ⟨3⟩ 1 := by
    refine ⟨⟨⟨5⟩, _, _, rfl, rfl⟩, fun earlier hlt => ?_⟩
    rw [Nat.lt_one_iff.mp hlt]
    rintro ⟨r, h, h', hfirst, hnext⟩
    cases hfirst
    cases hnext
  obtain ⟨-, hall⟩ :=
    simplify_outcome ⟨.all, 0, true⟩ (.ofGraph .sample) ⟨3⟩ Graph.sample_sound rfl
  obtain ⟨r, h, htrail, -, hrun, -, hlater⟩ := hall 1 hrests
  cases htrail
  obtain ⟨w', hrun, hgraph⟩ := hrun (Or.inr (by decide))
  exact ⟨Graph.sample_sound, rfl, hrests, w', hrun,
    hlater (by decide) rfl ⟨.all, 7, false⟩ w' rfl (hgraph ▸ .refl _)⟩

end Run

end ValueGraph
