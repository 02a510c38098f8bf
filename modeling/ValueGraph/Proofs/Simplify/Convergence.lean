/-
  ValueGraph.Proofs.Simplify.Convergence

  Passes come to rest.  A pass never makes the term of the root larger, and one
  that answers another root makes it lighter.  So only so many passes change the
  root as the term weighs, however they are interleaved with passes that do not
  (`PassRun.changes_le`), and three passes for each node of the term are always
  enough for a run that has to settle (`passes_converge`).
-/
import ValueGraph.Proofs.Simplify.Run

namespace ValueGraph

open ValueGraph.Graph (Full)

namespace Rules

/-- Passes one after the other, each from the answer of the one before; `changes` of them answer
    another root than they were given. -/
inductive PassRun (rules : Rules) :
    NodeId → Workspace → (changes : Nat) → NodeId → Workspace → Prop
  | done {root : NodeId} {w : Workspace} : rules.PassRun root w 0 root w
  | keep {number changes : Nat} {root r : NodeId} {w w₁ w' : Workspace} :
      rules.pass number root w = .ok root w₁ → rules.PassRun root w₁ changes r w' →
      rules.PassRun root w changes r w'
  | change {number changes : Nat} {root image r : NodeId} {w w₁ w' : Workspace} :
      rules.pass number root w = .ok image w₁ → image ≠ root →
      rules.PassRun image w₁ changes r w' → rules.PassRun root w (changes + 1) r w'

variable {rules : Rules} {w : Workspace} {root : NodeId} {t : Term}

/-- A pass does not make the term of the root larger; if it answers another root, that one stands
    for a lighter term. -/
theorem ends_pass_weight (hroot : w.graph.Unfolds root t) (number : Nat) :
    Ends (rules.pass number root) w
      (fun image w' => ∃ t', w'.graph.Unfolds image t' ∧ t'.size ≤ t.size ∧
        (image ≠ root → t'.weight < t.weight))
      (·.graph.Full) := by
  refine (ends_pass_rewrites hroot number).mono ?_
  rintro image w' ⟨himage, -, hsame⟩
  refine ⟨_, himage, size_rewrite_le t, fun hchanged => ?_⟩
  exact weight_rewrite_lt fun hcanonical => hchanged (hsame.mpr hcanonical)

/-- Each pass that changes the root uses up some of the weight of its term. -/
theorem PassRun.changes_add_weight_le {changes : Nat} {r : NodeId} {w' : Workspace}
    (hrun : rules.PassRun root w changes r w') (hroot : w.graph.Unfolds root t) :
    ∃ t', w'.graph.Unfolds r t' ∧ changes + t'.weight ≤ t.weight := by
  induction hrun generalizing t with
  | done => exact ⟨t, hroot, by omega⟩
  | keep hpass _ ih =>
      -- A pass that keeps the root adds no weight.
      obtain ⟨himage, -, -⟩ := (ends_pass_rewrites hroot _).of_ok hpass
      obtain ⟨t', ht', hle⟩ := ih himage
      have hstep : (rules.rewrite t).weight ≤ t.weight := weight_rewrite_le t
      exact ⟨t', ht', by omega⟩
  | change hpass hne _ ih =>
      obtain ⟨s, himage, -, hlighter⟩ := (ends_pass_weight hroot _).of_ok hpass
      obtain ⟨t', ht', hle⟩ := ih himage
      have hstep : s.weight < t.weight := hlighter hne
      exact ⟨t', ht', by omega⟩

theorem PassRun.changes_le {changes : Nat} {r : NodeId} {w' : Workspace}
    (hrun : rules.PassRun root w changes r w') (hroot : w.graph.Unfolds root t) :
    changes ≤ t.weight := by
  obtain ⟨t', -, hle⟩ := hrun.changes_add_weight_le hroot
  omega

end Rules

theorem Config.toNat_passes (config : Config) :
    config.passes.toNat = max config.passLimit.toNat 1 := by
  show (if config.passLimit ≤ 1 then 1 else config.passLimit).toNat = _
  split
  case isTrue hone => exact (Nat.max_eq_right (UInt32.le_iff_toNat_le.mp hone)).symm
  case isFalse hmany =>
    have hlt : 1 < config.passLimit.toNat := UInt32.lt_iff_toNat_lt.mp (UInt32.not_le.mp hmany)
    exact (Nat.max_eq_left hlt.le).symm

theorem Config.passLimit_le_passes (config : Config) :
    config.passLimit.toNat ≤ config.passes.toNat := by
  rw [config.toNat_passes]
  exact Nat.le_max_left ..

/-- At least one pass is allowed. -/
theorem Config.passes_pos (config : Config) : 0 < config.passes.toNat := by
  rw [config.toNat_passes]
  exact Nat.lt_of_lt_of_le Nat.one_pos (Nat.le_max_right ..)

/-- A run answers a root, also if it has to settle, when it is allowed as many passes as the term
    weighs. -/
theorem ends_simplify_of_weight_le {config : Config} {w : Workspace} {root : NodeId} {t : Term}
    (hroot : w.graph.Unfolds root t) (henough : t.weight ≤ config.passLimit.toNat) :
    Ends (simplify config root) w (fun answer w' => (∃ r, answer = .ok r) ∨ w'.graph.Full)
      (·.graph.Full) := by
  refine (ends_simplify hroot).mono ?_
  rintro (fault | r) w' hanswer
  · cases fault with
    | unsettled passes =>
        obtain ⟨-, -, hfew⟩ := hanswer
        -- Too few passes would be fewer than the term weighs.
        have hlimit := config.passLimit_le_passes
        omega
    | corrupted | unknownRoot => exact Or.inr hanswer
  · exact Or.inl ⟨r, rfl⟩

/-- Passes from a sound root come to rest.  A pass never makes the term of the root larger, and it
    makes it lighter if it answers another root; so at most as many passes change the root as its
    term weighs, and three passes for each node of the term are enough for any run, also for one
    that has to settle.  Only a full graph can stop any of them. -/
theorem passes_converge (w : Workspace) (root : NodeId) (hsound : w.graph.Sound root) :
    ∃ t, w.graph.Unfolds root t ∧
      (∀ (rules : Rules) (number : Nat),
        Ends (rules.pass number root) w
          (fun image w' => ∃ t', w'.graph.Unfolds image t' ∧ t'.size ≤ t.size ∧
            (image ≠ root → t'.weight < t.weight))
          (·.graph.Full)) ∧
      (∀ (rules : Rules) (changes : Nat) (r : NodeId) (w' : Workspace),
        rules.PassRun root w changes r w' → changes ≤ t.weight) ∧
      (∀ config : Config, 3 * t.size ≤ config.passLimit.toNat →
        Ends (simplify config root) w (fun answer w' => (∃ r, answer = .ok r) ∨ w'.graph.Full)
          (·.graph.Full)) := by
  obtain ⟨t, hroot⟩ := Graph.exists_unfolds_iff.mpr hsound
  refine ⟨t, hroot, ?_, ?_, ?_⟩
  · exact fun rules number => Rules.ends_pass_weight hroot number
  · exact fun rules changes r w' hrun => hrun.changes_le hroot
  · intro config henough
    exact ends_simplify_of_weight_le hroot (Nat.le_trans t.weight_le henough)

theorem passes_converge_sample :
    Graph.sample.Sound ⟨3⟩ ∧
      ∃ t, Graph.sample.Unfolds ⟨3⟩ t ∧ t.size = 5 ∧ t.weight = 5 ∧
        Ends (simplify ⟨.all, 15, true⟩ ⟨3⟩) (.ofGraph .sample)
          (fun answer w' => (∃ r, answer = .ok r) ∨ w'.graph.Full) (·.graph.Full) := by
  refine ⟨Graph.sample_sound, ?_⟩
  obtain ⟨t, hroot, -, -, hrun⟩ := passes_converge (.ofGraph .sample) ⟨3⟩ Graph.sample_sound
  cases hroot.unique Graph.sample_unfolds
  exact ⟨_, hroot, rfl, rfl, hrun ⟨.all, 15, true⟩ (by decide)⟩

end ValueGraph
