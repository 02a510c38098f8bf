/-
  ValueGraph.Proofs.Simplify.Lockstep

  Two runs in lockstep.

  A step keeps two workspaces in step with regard to a relation if, done from
  related workspaces, it ends the same in both: with the same answer or the same
  fault, and in related workspaces again (`Lockstep`).  Steps that do this do it
  one after the other, and a reading does it if related graphs read the same.
-/
import ValueGraph.Proofs.Stateful
import ValueGraph.Simplify.Workspace

namespace ValueGraph

/-- Two ends of a step with the same answer or the same fault, in related workspaces. -/
inductive SameEnd (R : Workspace → Workspace → Prop) {α : Type} :
    EStateM.Result Fault Workspace α → EStateM.Result Fault Workspace α → Prop
  | ok {a : α} {w v : Workspace} : R w v → SameEnd R (.ok a w) (.ok a v)
  | error {fault : Fault} {w v : Workspace} : R w v → SameEnd R (.error fault w) (.error fault v)

/-- What follows two steps that have ended the same ends the same if it does from there. -/
theorem SameEnd.bind {R S : Workspace → Workspace → Prop} {α β : Type} {x x' : Simplify α}
    {f f' : α → Simplify β} {w v : Workspace} (hx : SameEnd R (x w) (x' v))
    (hf : ∀ a w' v', R w' v' → SameEnd S (f a w') (f' a v'))
    (hstop : ∀ w' v', R w' v' → S w' v') : SameEnd S ((x >>= f) w) ((x' >>= f') v) := by
  show SameEnd S (EStateM.bind x f w) (EStateM.bind x' f' v)
  rw [EStateM.bind, EStateM.bind]
  generalize x w = end₁ at hx
  generalize x' v = end₂ at hx
  cases hx with
  | ok h => exact hf _ _ _ h
  | error h => exact .error (hstop _ _ h)

/-- A step that ends the same from related workspaces, and leaves them related. -/
def Lockstep (R : Workspace → Workspace → Prop) {α : Type} (x : Simplify α) : Prop :=
  ∀ w v, R w v → SameEnd R (x w) (x v)

namespace Lockstep

variable {R : Workspace → Workspace → Prop} {α β : Type}

theorem pure (a : α) : Lockstep R (Pure.pure a : Simplify α) := fun _ _ h => .ok h

theorem throw (fault : Fault) : Lockstep R (MonadExcept.throw fault : Simplify α) :=
  fun _ _ h => .error h

theorem bind {x : Simplify α} {f : α → Simplify β} (hx : Lockstep R x)
    (hf : ∀ a, Lockstep R (f a)) : Lockstep R (x >>= f) :=
  fun w v h => (hx w v h).bind hf fun _ _ h' => h'

theorem view {read : Graph → Except Fault α} (hread : ∀ w v, R w v → read w.graph = read v.graph) :
    Lockstep R (Workspace.view read) := by
  intro w v h
  rw [Workspace.view, Workspace.view, hread w v h]
  cases read v.graph with
  | ok a => exact .ok h
  | error fault => exact .error h

end Lockstep

end ValueGraph
