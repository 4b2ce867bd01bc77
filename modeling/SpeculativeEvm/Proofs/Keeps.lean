import Mathlib.Order.Defs.Unbundled
import SpeculativeEvm.Machine

/-! What actions do to the state they act on, whether or not they fault. `x.final s` is the state
that `x` leaves when it starts in `s`, and `x.Keeps R` says that `R` relates every state to the one
`x` leaves there. For a preorder `R` that is closed under sequencing, so a fact about a long action
follows from the same fact about its parts. -/

namespace SpeculativeEvm

namespace Action

variable {σ α β : Type} {R : σ → σ → Prop} {x : Action σ α} {s t : σ}

def final (x : Action σ α) (s : σ) : σ :=
  match x s with
  | .ok _ t => t
  | .error _ t => t

def Keeps (R : σ → σ → Prop) (x : Action σ α) : Prop := ∀ s, R s (x.final s)

theorem final_of_ok {a : α} (h : x s = .ok a t) : x.final s = t := by
  rw [final, h]

theorem final_of_error {e : Fault} (h : x s = .error e t) : x.final s = t := by
  rw [final, h]

theorem bind_of_ok {f : α → Action σ β} {a : α} (h : x s = .ok a t) : (x >>= f) s = f a t := by
  rw [bind_apply, h]

theorem bind_of_error {f : α → Action σ β} {e : Fault} (h : x s = .error e t) :
    (x >>= f) s = .error e t := by
  rw [bind_apply, h]

/-- A sequence that succeeds has parts that succeed. -/
theorem of_bind_ok {f : α → Action σ β} {b : β} (h : (x >>= f) s = .ok b t) :
    ∃ a s', x s = .ok a s' ∧ f a s' = .ok b t := by
  rcases hx : x s with ⟨a, s'⟩ | ⟨e, s'⟩
  · rw [bind_of_ok hx] at h
    exact ⟨a, s', rfl, h⟩
  · rw [bind_of_error hx] at h
    cases h

theorem final_bind_of_ok {f : α → Action σ β} {a : α} (h : x s = .ok a t) :
    (x >>= f).final s = (f a).final t := by
  rw [final, bind_of_ok h, final]

theorem final_bind_of_error {f : α → Action σ β} {e : Fault} (h : x s = .error e t) :
    (x >>= f).final s = t :=
  final_of_error (bind_of_error h)

/-- The second part of a sequence runs from where the first one ended, unless that one faulted. -/
theorem final_bind_cases (x : Action σ α) (f : α → Action σ β) (s : σ) :
    (∃ a, x s = .ok a (x.final s) ∧ (x >>= f).final s = (f a).final (x.final s)) ∨
      (∃ e, x s = .error e (x.final s)) ∧ (x >>= f).final s = x.final s := by
  rcases hx : x s with ⟨a, t⟩ | ⟨e, t⟩
  · rw [final_of_ok hx]
    exact .inl ⟨a, rfl, final_bind_of_ok hx⟩
  · rw [final_of_error hx]
    exact .inr ⟨⟨e, rfl⟩, final_bind_of_error hx⟩

namespace Keeps

theorem mono {Q : σ → σ → Prop} (hx : x.Keeps Q) (h : ∀ {s t}, Q s t → R s t) : x.Keeps R :=
  fun s => h (hx s)

section Preorder

variable [IsPreorder σ R]

protected theorem pure (a : α) : (pure a : Action σ α).Keeps R := fun s => refl_of R s

protected theorem throw (e : Fault) : (throw e : Action σ α).Keeps R := fun s => refl_of R s

protected theorem get : (get : Action σ σ).Keeps R := fun s => refl_of R s

protected theorem bind {f : α → Action σ β} (hx : x.Keeps R) (hf : ∀ a, (f a).Keeps R) :
    (x >>= f).Keeps R := by
  intro s
  rcases final_bind_cases x f s with ⟨a, -, he⟩ | ⟨-, he⟩
  · rw [he]
    exact trans_of R (hx s) (hf a _)
  · rw [he]
    exact hx s

end Preorder

protected theorem map {f : α → β} (hx : x.Keeps R) : (f <$> x).Keeps R := by
  intro s
  have h : (f <$> x).final s = x.final s := by
    rw [final, final, map_apply]
    cases x s <;> rfl
  exact h ▸ hx s

end Keeps

end Action

namespace Machine

variable {σ α : Type} (m : Machine σ)

@[simp] theorem final_check (r : Except Fault α) :
    (check r : Action (Machine σ) α).final m = m := by
  cases r <;> rfl

@[simp] theorem final_onStack (act : Action Stack α) :
    (onStack act).final m = ⟨{ m.frame with stack := act.final m.frame.stack }, m.world⟩ := by
  obtain ⟨⟨pc, stack, memory, output⟩, world⟩ := m
  simp only [onStack, Action.final]
  cases act stack <;> rfl

@[simp] theorem final_onMemory (act : Action Memory α) :
    (onMemory act).final m = ⟨{ m.frame with memory := act.final m.frame.memory }, m.world⟩ := by
  obtain ⟨⟨pc, stack, memory, output⟩, world⟩ := m
  simp only [onMemory, Action.final]
  cases act memory <;> rfl

@[simp] theorem final_onWorld (act : Action (World σ) α) :
    (onWorld act).final m = ⟨m.frame, act.final m.world⟩ := by
  obtain ⟨frame, world⟩ := m
  simp only [onWorld, Action.final]
  cases act world <;> rfl

theorem note_apply (event : Machine σ → Event) :
    note event m =
      .ok () ⟨m.frame, { m.world with journal := m.world.journal.note (event m) }⟩ := by
  by_cases h : m.world.journal.recording <;> simp [note, Journal.note, h]

@[simp] theorem final_note (event : Machine σ → Event) :
    (note event).final m =
      ⟨m.frame, { m.world with journal := m.world.journal.note (event m) }⟩ :=
  Action.final_of_ok (note_apply m event)

/-! One step of an action that starts with a primitive. -/

variable {β : Type}

theorem onStack_apply (act : Action Stack α) :
    onStack act m = match act m.frame.stack with
      | .ok a stack => .ok a ⟨{ m.frame with stack }, m.world⟩
      | .error e stack => .error e ⟨{ m.frame with stack }, m.world⟩ := rfl

theorem onStack_bind (act : Action Stack α) (f : α → Action (Machine σ) β) :
    (onStack act >>= f) m = match act m.frame.stack with
      | .ok a stack => f a ⟨{ m.frame with stack }, m.world⟩
      | .error e stack => .error e ⟨{ m.frame with stack }, m.world⟩ := by
  obtain ⟨⟨pc, stack, memory, output⟩, world⟩ := m
  rw [Action.bind_apply, onStack]
  cases act stack <;> rfl

theorem onMemory_apply (act : Action Memory α) :
    onMemory act m = match act m.frame.memory with
      | .ok a memory => .ok a ⟨{ m.frame with memory }, m.world⟩
      | .error e memory => .error e ⟨{ m.frame with memory }, m.world⟩ := rfl

theorem onMemory_bind (act : Action Memory α) (f : α → Action (Machine σ) β) :
    (onMemory act >>= f) m = match act m.frame.memory with
      | .ok a memory => f a ⟨{ m.frame with memory }, m.world⟩
      | .error e memory => .error e ⟨{ m.frame with memory }, m.world⟩ := by
  obtain ⟨⟨pc, stack, memory, output⟩, world⟩ := m
  rw [Action.bind_apply, onMemory]
  cases act memory <;> rfl

theorem onWorld_apply (act : Action (World σ) α) :
    onWorld act m = match act m.world with
      | .ok a world => .ok a ⟨m.frame, world⟩
      | .error e world => .error e ⟨m.frame, world⟩ := by
  obtain ⟨frame, world⟩ := m
  rfl

theorem onWorld_bind (act : Action (World σ) α) (f : α → Action (Machine σ) β) :
    (onWorld act >>= f) m = match act m.world with
      | .ok a world => f a ⟨m.frame, world⟩
      | .error e world => .error e ⟨m.frame, world⟩ := by
  rw [Action.bind_apply, onWorld_apply]
  cases act m.world <;> rfl

theorem onRun_bind (g : Speculation → Speculation) (f : Unit → Action (Machine σ) β) :
    (onRun g >>= f) m = f () ⟨m.frame, { m.world with run := g m.world.run }⟩ := rfl

theorem readRun_bind (g : Speculation → α) (f : α → Action (Machine σ) β) :
    (readRun g >>= f) m = f (g m.world.run) m := rfl

theorem get_bind (f : Machine σ → Action (Machine σ) β) : (get >>= f) m = f m m := rfl

theorem check_bind (r : Except Fault α) (f : α → Action (Machine σ) β) :
    (check r >>= f) m = match r with
      | .ok a => f a m
      | .error e => .error e m := by
  cases r <;> rfl

theorem note_bind (event : Machine σ → Event) (f : Unit → Action (Machine σ) β) :
    (note event >>= f) m =
      f () ⟨m.frame, { m.world with journal := m.world.journal.note (event m) }⟩ :=
  Action.bind_of_ok (note_apply m event)

theorem setPc_bind (n : Nat) (f : Unit → Action (Machine σ) β) :
    (setPc n >>= f) m = f () ⟨{ m.frame with pc := n }, m.world⟩ := rfl

theorem setOutput_bind (output : Bytes) (f : Unit → Action (Machine σ) β) :
    (setOutput output >>= f) m = f () ⟨{ m.frame with output }, m.world⟩ := rfl

end Machine

namespace World

variable {σ : Type} (w : World σ)

theorem note_apply (event : World σ → Event) :
    note event w = .ok () { w with journal := w.journal.note (event w) } := by
  by_cases h : w.journal.recording <;> simp [note, Journal.note, h]

end World

end SpeculativeEvm
