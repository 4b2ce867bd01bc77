import SpeculativeEvm.Proofs.Nesting.Frame
import SpeculativeEvm.Proofs.Nesting.Level

/-! What holds of the frame at work at every point of a run: its stack is within the limit, as many
levels may run below it as are left, and the run has not aborted, since an aborted run ends all its
frames without another instruction. -/

namespace SpeculativeEvm

open Execute Speculation Nesting

variable {σ : Type}

theorem Stack.depth_le_of_isOp {α : Type} {act : Action Stack α} (h : IsOp act) {s : Stack}
    (hs : s.depth ≤ maxStackDepth) : (act.final s).depth ≤ maxStackDepth := by
  have hpush (w : Word) : ((push w).final s).depth ≤ maxStackDepth := by
    unfold Action.final push
    by_cases hd : s.depth < maxStackDepth
    · rw [if_pos hd]
      exact hd
    · rw [if_neg hd]
      exact hs
  obtain ⟨words⟩ := s
  cases h with
  | push w => exact hpush w
  | pop | peek | poke =>
    cases words with
    | nil => exact hs
    | cons w rest => first | exact hs | exact Nat.le_of_succ_le hs
  | popN n =>
    unfold Action.final popN
    by_cases hn : (words.take n).length = n
    · rw [dif_pos hn]
      have hle : (words.drop n).length ≤ words.length := by
        rw [List.length_drop]
        exact Nat.sub_le _ _
      exact Nat.le_trans hle hs
    · rw [dif_neg hn]
      exact hs
  | swap n =>
    cases words with
    | nil => exact hs
    | cons top rest =>
      cases n with
      | zero => exact hs
      | succ k =>
        cases hk : rest[k]? with
        | none => simpa only [Action.final, swap, hk] using hs
        | some w =>
          simpa only [Action.final, swap, hk, depth, List.length_cons, List.length_set] using hs
  | dup n =>
    cases n with
    | zero => exact hs
    | succ k =>
      cases hk : words[k]? with
      | none => simpa only [Action.final, dup, hk] using hs
      | some w => simpa only [Action.final, dup, hk] using hpush w

def Machine.StackBounded (m m' : Machine σ) : Prop :=
  m.frame.stack.depth ≤ maxStackDepth → m'.frame.stack.depth ≤ maxStackDepth

namespace Machine.StackBounded

theorem parts : Parts (StackBounded (σ := σ)) where
  refl _ h := h
  trans _ _ _ h h' := h' ∘ h
  onStack ha m h := by
    rw [final_onStack]
    exact Stack.depth_le_of_isOp ha h
  onMemory act m h := by
    rw [final_onMemory]
    exact h
  setPc _ _ h := h

theorem note (event : Machine σ → Event) : (note event).Keeps StackBounded := by
  intro m h
  rw [final_note]
  exact h

theorem onRun (f : Speculation → Speculation) :
    (onRun f : Action (Machine σ) Unit).Keeps StackBounded := fun _ h => h

theorem advance (setup : Setup) (host : Host σ) (inv : Invocation) (opcode : UInt8) :
    (Interpreter.advance setup host inv opcode).Keeps StackBounded := by
  have := (parts (σ := σ)).toIsPreorder
  rw [Interpreter.advance_eq]
  refine .bind (note _) fun _ => .bind (.bind ?_ fun progress => ?_) fun control =>
    Interpreter.moveOn_keeps parts note inv opcode control
  · exact start_keeps parts setup inv (fun _ => onRun) (fun _ => note) fun _ _ _ h => h
  · cases progress with
    | done control => exact .pure _
    | ask request resolution =>
      refine .bind (fun m h => ?_) fun _ => resolve_keeps parts.data note (onRun _) resolution
      rw [final_onWorld]
      exact h

theorem runFor (setup : Setup) (host : Host σ) (inv : Invocation) (budget : Nat) :
    (Interpreter.runFor setup host inv budget).Keeps StackBounded := by
  have := (parts (σ := σ)).toIsPreorder
  have hfetch : (Interpreter.fetch inv : Action (Machine σ) _).Keeps StackBounded := fun _ h => h
  induction budget with
  | zero =>
    refine .bind hfetch fun opcode => ?_
    split
    · exact .throw _
    · exact .pure _
  | succ budget ih =>
    refine .bind hfetch fun opcode => ?_
    cases opcode with
    | none => exact .pure _
    | some opcode =>
      refine .bind (advance setup host inv opcode) fun goesOn => ?_
      split
      · exact ih
      · exact .pure _

end Machine.StackBounded

namespace Point

structure Sound (setup : Setup) (p : Point) : Prop where
  stack : p.machine.frame.stack.depth ≤ maxStackDepth
  depth : p.depth = setup.settings.maxCallDepth - p.run.level
  aborted : p.run.outcome.aborted = false

variable {setup : Setup} {p q : Point}

theorem Step.stack_le (hs : Step setup p q) (hp : p.machine.frame.stack.depth ≤ maxStackDepth) :
    q.machine.frame.stack.depth ≤ maxStackDepth := by
  rcases step_iff.1 hs with hn | he
  · obtain ⟨opcode, hop, -⟩ := next?_eq_some hn
    rw [machine_of_next hn, after_of_opcode hop]
    exact Machine.StackBounded.advance setup (host setup p.depth) p.inv opcode _ hp
  · obtain ⟨opcode, -, request, resolution, m, depth, next, w, -, -, -, rfl⟩ := entered?_eq_some he
    exact Nat.zero_le maxStackDepth

theorem Reaches.stack_le (hr : Reaches setup p q)
    (hp : p.machine.frame.stack.depth ≤ maxStackDepth) :
    q.machine.frame.stack.depth ≤ maxStackDepth := by
  induction hr with
  | refl => exact hp
  | tail _ hs ih => exact hs.stack_le ih

theorem Step.sound (hs : Step setup p q) (hp : p.Sound setup) : q.Sound setup := by
  have hdepth := hp.depth
  have hstack := hs.stack_le hp.stack
  rcases step_iff.1 hs with hn | he
  · have hl := level_of_next hn
    have hd := (budget_of_next hn).1
    exact ⟨hstack, by omega, aborted_of_next hn⟩
  · have hl := level_of_entered he
    have hd := (depth_of_entered he).1
    exact ⟨hstack, by omega, (aborted_of_entered he).trans hp.aborted⟩

theorem Reaches.sound (hr : Reaches setup p q) (hp : p.Sound setup) : q.Sound setup := by
  induction hr with
  | refl => exact hp
  | tail _ hs ih => exact hs.sound ih

/-- Every point of a run that starts with a stack within the limit and has not aborted. -/
theorem sound_of_reaches (inv : Invocation) {m : Machine Nonces}
    (hs : m.frame.stack.depth ≤ maxStackDepth) (ha : m.world.run.outcome.aborted = false)
    (hr : Reaches setup (start setup inv m) p) : p.Sound setup :=
  hr.sound ⟨hs, rfl, ha⟩

end Point

end SpeculativeEvm
