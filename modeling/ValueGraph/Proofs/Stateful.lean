/-
  ValueGraph.Proofs.Stateful

  Two stateful computations one after the other, how they end, and the state in
  which they do.
-/

namespace ValueGraph

variable {ε σ α β : Type} {x : EStateM ε σ α} {f f' : α → EStateM ε σ β} {s s' : σ}

/-- The state in which a computation ends, with an answer or without. -/
def endState : EStateM.Result ε σ α → σ
  | .ok _ s => s
  | .error _ s => s

/-- What follows a computation that answers goes on from there. -/
theorem bind_of_ok {a : α} (h : x s = .ok a s') : (x >>= f) s = f a s' := by
  show EStateM.bind x f s = _
  rw [EStateM.bind, h]

/-- Nothing follows a computation that ends in an error. -/
theorem bind_of_error {e : ε} (h : x s = .error e s') : (x >>= f) s = .error e s' := by
  show EStateM.bind x f s = _
  rw [EStateM.bind, h]

/-- Two computations answer if the first one does and the second one does from there. -/
theorem exists_of_bind_eq_ok {b : β} (h : (x >>= f) s = .ok b s') :
    ∃ a s₁, x s = .ok a s₁ ∧ f a s₁ = .ok b s' := by
  cases hx : x s with
  | ok a s₁ =>
      rw [bind_of_ok hx] at h
      exact ⟨a, s₁, rfl, h⟩
  | error e s₁ =>
      rw [bind_of_error hx] at h
      cases h

/-- What follows a computation makes a difference only where the computation answers. -/
theorem bind_eq_bind (h : ∀ a s', x s = .ok a s' → f a s' = f' a s') :
    (x >>= f) s = (x >>= f') s := by
  cases hx : x s with
  | ok a s' => rw [bind_of_ok hx, bind_of_ok hx, h a s' hx]
  | error e s' => rw [bind_of_error hx, bind_of_error hx]

end ValueGraph
