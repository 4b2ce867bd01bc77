import SpeculativeEvm.Fault

/-!
Computations on a state that may fault. A fault keeps the state as it stands at that point, so the
effects before it remain.
-/

namespace SpeculativeEvm

abbrev Action (σ α : Type) := EStateM Fault σ α

namespace Action

variable {σ α β : Type}

theorem bind_apply (x : Action σ α) (f : α → Action σ β) (s : σ) :
    (x >>= f) s = match x s with
      | .ok a s => f a s
      | .error e s => .error e s := by
  show EStateM.bind x f s = _
  unfold EStateM.bind
  cases x s <;> rfl

theorem map_apply (f : α → β) (x : Action σ α) (s : σ) :
    (f <$> x) s = match x s with
      | .ok a s => .ok (f a) s
      | .error e s => .error e s := by
  show EStateM.map f x s = _
  unfold EStateM.map
  cases x s <;> rfl

end Action

end SpeculativeEvm
