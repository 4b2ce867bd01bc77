import SpeculativeEvm.Proofs.Keeps

/-! Computations in which operations have domains. Such a computation comes to nothing where an
operation is asked for what is not in its domain. It agrees with an action if it always comes to
what the action comes to, and agreement is closed under sequencing. -/

namespace SpeculativeEvm

/-- Computations on a state that may fault, and that come to nothing outside the domain of an
operation. -/
def Checked (σ α : Type) : Type := σ → Option (EStateM.Result Fault σ α)

namespace Checked

variable {σ α β : Type}

instance : Monad (Checked σ) where
  pure a := fun s => some (.ok a s)
  bind x f := fun s =>
    match x s with
    | none => none
    | some (.ok a s) => f a s
    | some (.error e s) => some (.error e s)

def lift (x : Action σ α) : Checked σ α := fun s => some (x s)

instance : MonadLift Option (Checked σ) where
  monadLift o := fun s => o.map fun a => .ok a s

theorem bind_apply (x : Checked σ α) (f : α → Checked σ β) (s : σ) :
    (x >>= f) s = match x s with
      | none => none
      | some (.ok a t) => f a t
      | some (.error e t) => some (.error e t) := rfl

theorem bind_of_ok {x : Checked σ α} {f : α → Checked σ β} {s t : σ} {a : α}
    (h : x s = some (.ok a t)) : (x >>= f) s = f a t := by
  rw [bind_apply, h]

theorem bind_of_error {x : Checked σ α} {f : α → Checked σ β} {s t : σ} {e : Fault}
    (h : x s = some (.error e t)) : (x >>= f) s = some (.error e t) := by
  rw [bind_apply, h]

/-- From every state in `I` the computation comes to what the action comes to, and to a state
in `I`. -/
def Agrees (I : σ → Prop) (x : Checked σ α) (y : Action σ α) : Prop :=
  ∀ s, I s → x s = some (y s) ∧ I (y.final s)

namespace Agrees

variable {I : σ → Prop} {x : Checked σ α} {y : Action σ α}

protected theorem lift (h : ∀ s, I s → I (y.final s)) : Agrees I (lift y) y :=
  fun s hs => ⟨rfl, h s hs⟩

protected theorem pure (a : α) : Agrees I (pure a) (pure a) := fun _ hs => ⟨rfl, hs⟩

/-- A sequence agrees at a state if its first part does, and the rest where that part ends. -/
theorem bind_from {s : σ} {f : α → Checked σ β} {g : α → Action σ β} (hx : x s = some (y s))
    (hok : ∀ a t, y s = .ok a t → f a t = some (g a t) ∧ I ((g a).final t))
    (herror : ∀ e t, y s = .error e t → I t) :
    (x >>= f) s = some ((y >>= g) s) ∧ I ((y >>= g).final s) := by
  rcases hy : y s with ⟨a, t⟩ | ⟨e, t⟩
  · rw [bind_of_ok (hx.trans (congrArg some hy)), Action.bind_of_ok hy,
      Action.final_bind_of_ok hy]
    exact hok a t hy
  · rw [bind_of_error (hx.trans (congrArg some hy)), Action.bind_of_error hy,
      Action.final_bind_of_error hy]
    exact ⟨rfl, herror e t hy⟩

/-- The rest of a sequence need only agree once its first part does where it starts. -/
theorem bind_at {s : σ} {f : α → Checked σ β} {g : α → Action σ β}
    (hx : x s = some (y s) ∧ I (y.final s)) (hf : ∀ a, Agrees I (f a) (g a)) :
    (x >>= f) s = some ((y >>= g) s) ∧ I ((y >>= g).final s) := by
  obtain ⟨hrun, hi⟩ := hx
  refine bind_from hrun (fun a t hy => ?_) fun e t hy => ?_
  · rw [Action.final_of_ok hy] at hi
    exact hf a t hi
  · rwa [Action.final_of_error hy] at hi

protected theorem bind {f : α → Checked σ β} {g : α → Action σ β} (hx : Agrees I x y)
    (hf : ∀ a, Agrees I (f a) (g a)) : Agrees I (x >>= f) (y >>= g) :=
  fun s hs => bind_at (hx s hs) hf

/-- A sequence of actions agrees with itself if its parts do. -/
theorem seq {x : Action σ α} {f : α → Action σ β} (hx : Agrees I (lift x) x)
    (hf : ∀ a, Agrees I (lift (f a)) (f a)) : Agrees I (lift (x >>= f)) (x >>= f) := by
  have hsplit : lift (x >>= f) = lift x >>= fun a => lift (f a) := by
    funext s
    rw [bind_apply, lift, lift, Action.bind_apply]
    cases x s <;> rfl
  rw [hsplit]
  exact .bind hx hf

theorem lift_pure (a : α) : Agrees I (lift (pure a)) (pure a) := .lift fun _ hs => hs

theorem mapped {x : Action σ α} (g : α → β) (hx : Agrees I (lift x) x) :
    Agrees I (lift (g <$> x)) (g <$> x) :=
  .lift (Action.Keeps.map (R := fun s t => I s → I t) fun s hs => (hx s hs).2)

/-- What lies in the domain of an operation is there for the rest. -/
theorem part_bind {o : Option α} {a : α} (ho : o = some a) {f : α → Checked σ β} {z : Action σ β}
    (hf : Agrees I (f a) z) : Agrees I (liftM o >>= f) z := by
  subst ho
  exact hf

end Agrees

/-! Computations on a part of the machine. -/

def onStack (x : Checked Stack α) : Checked (Machine σ) α := fun m =>
  match x m.frame.stack with
  | none => none
  | some (.ok a stack) => some (.ok a ⟨{ m.frame with stack }, m.world⟩)
  | some (.error e stack) => some (.error e ⟨{ m.frame with stack }, m.world⟩)

def onMemory (x : Checked Memory α) : Checked (Machine σ) α := fun m =>
  match x m.frame.memory with
  | none => none
  | some (.ok a memory) => some (.ok a ⟨{ m.frame with memory }, m.world⟩)
  | some (.error e memory) => some (.error e ⟨{ m.frame with memory }, m.world⟩)

def onWorld (x : Checked (World σ) α) : Checked (Machine σ) α := fun m =>
  match x m.world with
  | none => none
  | some (.ok a world) => some (.ok a ⟨m.frame, world⟩)
  | some (.error e world) => some (.error e ⟨m.frame, world⟩)

def Spacious (m : Memory) : Prop := m.limit + 32 ≤ addressSpace

/-- What the instructions of a frame count on; those that ask for a frame below it also count on a
level below. -/
structure Roomy (below : Bool) (m : Machine σ) : Prop where
  memory : Spacious m.frame.memory
  level : below = true → m.world.run.level + 1 < addressSpace

/-- Without a level below, less is counted on. -/
theorem Roomy.of_any {below : Bool} {m : Machine σ} (h : Roomy below m) : Roomy false m :=
  ⟨h.memory, nofun⟩

theorem onWorld_at {x : Checked (World σ) α} {y : Action (World σ) α} {m : Machine σ}
    (h : x m.world = some (y m.world)) : onWorld x m = some (Machine.onWorld y m) := by
  rw [onWorld, h, Machine.onWorld_apply]
  cases y m.world <;> rfl

namespace Agrees

variable {below : Bool}

theorem onStack {x : Checked Stack α} {y : Action Stack α} (h : Agrees (fun _ => True) x y) :
    Agrees (Roomy below) (onStack x : Checked (Machine σ) α) (Machine.onStack y) := by
  intro m hm
  obtain ⟨hrun, -⟩ := h m.frame.stack trivial
  refine ⟨?_, ?_⟩
  · rw [Machine.onStack_apply, Checked.onStack, hrun]
    cases y m.frame.stack <;> rfl
  · rw [Machine.final_onStack]
    exact ⟨hm.memory, hm.level⟩

theorem onMemory {x : Checked Memory α} {y : Action Memory α} (h : Agrees Spacious x y) :
    Agrees (Roomy below) (onMemory x : Checked (Machine σ) α) (Machine.onMemory y) := by
  intro m hm
  obtain ⟨hrun, hspace⟩ := h m.frame.memory hm.memory
  refine ⟨?_, ?_⟩
  · rw [Machine.onMemory_apply, Checked.onMemory, hrun]
    cases y m.frame.memory <;> rfl
  · rw [Machine.final_onMemory]
    exact ⟨hspace, hm.level⟩

end Agrees

end Checked

end SpeculativeEvm
