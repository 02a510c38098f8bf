/-
  ValueGraph.Proofs.Simplify.Trail

  Consecutive passes over a growing graph.

  A pass looks at nothing of a run but the graph: what was counted and reported
  before it, its number, and the images that an earlier pass kept have no
  influence on its answer or on the graph that it leaves (`pass_sameEnd`).  So
  consecutive passes are a function of the graph and the root alone
  (`Rules.trail`), and what a run does can be told by the first pass on that
  trail that keeps its root (`Rules.Rests`).
-/
import ValueGraph.Proofs.Simplify.Composition
import ValueGraph.Proofs.Simplify.Convergence
import ValueGraph.Proofs.Simplify.Lockstep

namespace ValueGraph

/-! ## What a pass looks at -/

/-- Two workspaces that differ at most in what was counted and reported. -/
structure Workspace.Alike (w v : Workspace) : Prop where
  graph : w.graph = v.graph
  images : w.images = v.images

/-- A step on which what was counted and reported has no influence. -/
def Unaware {α : Type} (x : Simplify α) : Prop := Lockstep Workspace.Alike x

namespace Unaware

variable {α : Type}

theorem view (read : Graph → Except Fault α) : Unaware (Workspace.view read) :=
  Lockstep.view fun _ _ h => congrArg read h.graph

theorem edit (change : Edit α) : Unaware (Workspace.edit change) := by
  rintro ⟨g, images, replaced, log⟩ ⟨_, _, replaced', log'⟩ ⟨rfl, rfl⟩
  simp only [Workspace.edit]
  cases change g with
  | ok a h => exact .ok ⟨rfl, rfl⟩
  | error fault h => exact .error ⟨rfl, rfl⟩

theorem image? (id : NodeId) : Unaware (Workspace.image? id) := by
  intro w v h
  rw [Workspace.image?, Workspace.image?, h.images]
  exact .ok h

theorem finish (id image : NodeId) : Unaware (Workspace.finish id image) := by
  rintro ⟨g, images, replaced, log⟩ ⟨_, _, replaced', log'⟩ ⟨rfl, rfl⟩
  exact .ok ⟨rfl, rfl⟩

theorem recordReplacement (rule : RuleName) (source target : NodeId) :
    Unaware (Workspace.recordReplacement rule source target) := by
  rintro ⟨g, images, replaced, log⟩ ⟨_, _, replaced', log'⟩ ⟨rfl, rfl⟩
  exact .ok ⟨rfl, rfl⟩

end Unaware

theorem unaware_compositional : Compositional @Unaware where
  pure := Lockstep.pure
  throw := Lockstep.throw
  bind := Lockstep.bind
  node _ _ hf _ := Lockstep.bind (Unaware.view _) hf
  args _ := Unaware.view _
  nodeRule _ _ _ := Unaware.view _
  push _ := Unaware.edit _
  pushArgs _ := Unaware.edit _
  image? := Unaware.image?
  finish := Unaware.finish
  recordReplacement := Unaware.recordReplacement

namespace Rules

variable {rules : Rules}

/-- A pass looks at the graph alone: two passes from one root over one graph end alike, whatever
    their numbers are and whatever was done before them. -/
theorem pass_sameEnd {w v : Workspace} (hgraph : w.graph = v.graph) (root : NodeId)
    (number number' : Nat) :
    SameEnd Workspace.Alike (rules.pass number root w) (rules.pass number' root v) := by
  let begun : Workspace := { w with images := ∅, replaced := 0 }
  let begun' : Workspace := { v with images := ∅, replaced := 0 }
  have hbegun : begun.Alike begun' := ⟨hgraph, rfl⟩
  -- What follows the beginning of a pass differs in the number of the last report only.
  have hrest : SameEnd Workspace.Alike
      ((do
        let image ← rules.imageOf (w.graph.size + 1) root
        Workspace.endPass number w.graph.size
        return image : Simplify NodeId) begun)
      ((do
        let image ← rules.imageOf (w.graph.size + 1) root
        Workspace.endPass number' w.graph.size
        return image : Simplify NodeId) begun') := by
    have himage := unaware_compositional.imageOf rules (w.graph.size + 1) root begun begun' hbegun
    exact himage.bind (fun image w' v' h => .ok ⟨h.graph, h.images⟩) fun _ _ h => h
  show SameEnd _ _ ((do
    let image ← rules.imageOf (v.graph.size + 1) root
    Workspace.endPass number' v.graph.size
    return image : Simplify NodeId) begun')
  rw [← hgraph]
  exact hrest

/-! ## Consecutive passes -/

/-- What one pass from a root over a graph answers, and the graph that it leaves. -/
def passOn (rules : Rules) (g : Graph) (root : NodeId) : Option (NodeId × Graph) :=
  match rules.pass 1 root (.ofGraph g) with
  | .ok image w => some (image, w.graph)
  | .error _ _ => none

/-- The root and the graph after so many passes, each of them from the answer of the one before and
    over the graph that it left. -/
def trail (rules : Rules) (g : Graph) (root : NodeId) : Nat → Option (NodeId × Graph)
  | 0 => some (root, g)
  | count + 1 =>
    match rules.passOn g root with
    | some (image, h) => rules.trail h image count
    | none => none

/-- The pass that follows the first `count` ones keeps its root. -/
def KeepsAt (rules : Rules) (g : Graph) (root : NodeId) (count : Nat) : Prop :=
  ∃ r h h', rules.trail g root count = some (r, h) ∧ rules.trail g root (count + 1) = some (r, h')

/-- Passes come to rest after `count` of them: the next one keeps its root, and none did before. -/
structure Rests (rules : Rules) (g : Graph) (root : NodeId) (count : Nat) : Prop where
  keepsAt : rules.KeepsAt g root count
  first : ∀ earlier < count, ¬ rules.KeepsAt g root earlier

variable {g h : Graph} {root image : NodeId} {t : Term} {count : Nat} {w : Workspace}

/-- A pass in any run does what it does on the graph alone. -/
theorem exists_pass_of_passOn (hpass : rules.passOn w.graph root = some (image, h))
    (number : Nat) : ∃ w', rules.pass number root w = .ok image w' ∧ w'.graph = h := by
  have hsame : SameEnd Workspace.Alike (rules.pass number root w)
      (rules.pass 1 root (.ofGraph w.graph)) :=
    pass_sameEnd (w := w) (v := .ofGraph w.graph) rfl root number 1
  rw [passOn] at hpass
  generalize rules.pass number root w = end₁ at hsame
  generalize rules.pass 1 root (.ofGraph w.graph) = end₂ at hsame hpass
  cases hsame with
  | ok halike =>
      cases hpass
      exact ⟨_, rfl, halike.graph⟩
  | error => cases hpass

theorem passOn_of_pass {number : Nat} {w' : Workspace}
    (hpass : rules.pass number root w = .ok image w') :
    rules.passOn w.graph root = some (image, w'.graph) := by
  have hsame : SameEnd Workspace.Alike (rules.pass number root w)
      (rules.pass 1 root (.ofGraph w.graph)) :=
    pass_sameEnd (w := w) (v := .ofGraph w.graph) rfl root number 1
  rw [passOn]
  rw [hpass] at hsame
  generalize rules.pass 1 root (.ofGraph w.graph) = end₂ at hsame
  cases hsame with
  | ok halike => exact congrArg (fun h => some (image, h)) halike.graph.symm

theorem trail_succ (hpass : rules.passOn g root = some (image, h)) (count : Nat) :
    rules.trail g root (count + 1) = rules.trail h image count := by
  rw [trail, hpass]

theorem keepsAt_zero : rules.KeepsAt g root 0 ↔ ∃ h, rules.passOn g root = some (root, h) := by
  constructor
  · rintro ⟨r, h, h', hfirst, hnext⟩
    cases hfirst
    cases hpass : rules.passOn g root with
    | none =>
        rw [trail, hpass] at hnext
        cases hnext
    | some answer =>
        rw [trail_succ hpass] at hnext
        cases hnext
        exact ⟨_, rfl⟩
  · rintro ⟨h, hpass⟩
    exact ⟨root, g, h, rfl, trail_succ hpass 0⟩

theorem keepsAt_succ (hpass : rules.passOn g root = some (image, h)) :
    rules.KeepsAt g root (count + 1) ↔ rules.KeepsAt h image count := by
  rw [KeepsAt, KeepsAt, trail_succ hpass, trail_succ hpass]

theorem exists_passOn_of_rests (hrests : rules.Rests g root count) :
    ∃ image h, rules.passOn g root = some (image, h) := by
  obtain ⟨r, h, h', -, hnext⟩ := hrests.keepsAt
  cases hpass : rules.passOn g root with
  | none =>
      rw [trail, hpass] at hnext
      cases hnext
  | some answer => exact ⟨answer.1, answer.2, rfl⟩

theorem rests_zero (hpass : rules.passOn g root = some (root, h)) : rules.Rests g root 0 :=
  ⟨keepsAt_zero.mpr ⟨h, hpass⟩, fun _ hlt => absurd hlt (Nat.not_lt_zero _)⟩

/-- After a pass that changes the root one pass less is to come. -/
theorem rests_succ_iff (hpass : rules.passOn g root = some (image, h)) (hchanged : image ≠ root) :
    rules.Rests g root (count + 1) ↔ rules.Rests h image count := by
  constructor
  · rintro ⟨hkeeps, hfirst⟩
    refine ⟨(keepsAt_succ hpass).mp hkeeps, fun earlier hlt hearlier => ?_⟩
    exact hfirst (earlier + 1) (Nat.succ_lt_succ hlt) ((keepsAt_succ hpass).mpr hearlier)
  · rintro ⟨hkeeps, hfirst⟩
    refine ⟨(keepsAt_succ hpass).mpr hkeeps, fun earlier hlt hearlier => ?_⟩
    cases earlier with
    | zero =>
        obtain ⟨h', hsame⟩ := keepsAt_zero.mp hearlier
        rw [hpass] at hsame
        cases hsame
        exact hchanged rfl
    | succ earlier =>
        exact hfirst earlier (Nat.lt_of_succ_lt_succ hlt) ((keepsAt_succ hpass).mp hearlier)

/-- No pass that changes the root comes before one that keeps it. -/
theorem Rests.eq_zero (hrests : rules.Rests g root count)
    (hpass : rules.passOn g root = some (root, h)) : count = 0 := by
  by_contra hpos
  exact hrests.first 0 (Nat.pos_of_ne_zero hpos) (keepsAt_zero.mpr ⟨h, hpass⟩)

/-- A pass that changes the root is one of those that are to come. -/
theorem Rests.exists_succ (hrests : rules.Rests g root count)
    (hpass : rules.passOn g root = some (image, h)) (hchanged : image ≠ root) :
    ∃ rest, count = rest + 1 ∧ rules.Rests h image rest := by
  cases count with
  | zero =>
      obtain ⟨h', hsame⟩ := keepsAt_zero.mp hrests.keepsAt
      rw [hpass] at hsame
      cases hsame
      exact absurd rfl hchanged
  | succ rest => exact ⟨rest, rfl, (rests_succ_iff hpass hchanged).mp hrests⟩

/-- Passes from a sound root come to rest, unless the graph becomes full on the way. -/
theorem exists_rests (hroot : g.Unfolds root t) :
    (∃ count, rules.Rests g root count) ∨
      ∃ count r h fault w', rules.trail g root count = some (r, h) ∧
        rules.pass 1 r (.ofGraph h) = .error fault w' ∧ w'.graph.Full := by
  induction hweight : t.weight using Nat.strong_induction_on generalizing g root t with
  | _ weight ih =>
      have hroot' : (Workspace.ofGraph g).graph.Unfolds root t := hroot
      rcases ends_pass_weight hroot' 1 with ⟨image, w', hrun, t', himage, -, hlighter⟩ |
        ⟨fault, w', hrun, hfull⟩
      · have hpass := passOn_of_pass hrun
        change rules.passOn g root = some (image, w'.graph) at hpass
        by_cases hkept : image = root
        · subst hkept
          exact Or.inl ⟨0, rests_zero hpass⟩
        · -- The new root stands for a lighter term, and the passes from there come to rest.
          have hlt : t'.weight < weight := hweight ▸ hlighter hkept
          rcases ih t'.weight hlt himage rfl with ⟨count, hrests⟩ |
            ⟨count, r, h, fault, w'', htrail, hstop⟩
          · exact Or.inl ⟨count + 1, (rests_succ_iff hpass hkept).mpr hrests⟩
          · refine Or.inr ⟨count + 1, r, h, fault, w'', ?_, hstop⟩
            rw [trail_succ hpass]
            exact htrail
      · exact Or.inr ⟨0, root, g, fault, w', rfl, hrun, hfull⟩

end Rules

end ValueGraph
