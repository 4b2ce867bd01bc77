import SpeculativeEvm.Proofs.Code.Boundary
import SpeculativeEvm.Proofs.Execute.Effect
import SpeculativeEvm.Proofs.Execute.Resolve

/-! What instructions do to the counter. One that succeeds leaves it at its own last byte, since
only the pushes have further bytes and only they move it; and jumps alone ask for another place,
which is then a jump destination of the code. -/

namespace SpeculativeEvm

variable {σ α β : Type}

def Action.Yields (P : α → Prop) (x : Action σ α) : Prop := ∀ s a t, x s = .ok a t → P a

namespace Action.Yields

variable {P : α → Prop}

protected theorem pure {a : α} (h : P a) : (pure a : Action σ α).Yields P := by
  intro s b t hb
  cases hb
  exact h

protected theorem throw (e : Fault) : (throw e : Action σ α).Yields P := by
  intro s a t h
  cases h

/-- What a sequence returns is returned by its last part. -/
protected theorem bind {x : Action σ β} {f : β → Action σ α} (h : ∀ b, (f b).Yields P) :
    (x >>= f).Yields P := by
  intro s a t ha
  obtain ⟨b, s', -, hf⟩ := of_bind_ok ha
  exact h b s' a t hf

end Action.Yields

namespace Machine

def SameCounter (m m' : Machine σ) : Prop := m'.frame.pc = m.frame.pc

namespace SameCounter

theorem parts : DataParts (SameCounter (σ := σ)) where
  refl _ := rfl
  trans _ _ _ h h' := h'.trans h
  onStack {_ act} _ m := by
    rw [final_onStack]
    rfl
  onMemory act m := by
    rw [final_onMemory]
    rfl

theorem note (event : Machine σ → Event) : (note event).Keeps SameCounter := by
  intro m
  rw [final_note]
  rfl

theorem onRun (f : Speculation → Speculation) :
    (onRun f : Action (Machine σ) Unit).Keeps SameCounter := fun _ => rfl

end SameCounter

end Machine

/-- The place that a frame goes on at from the counter, unless it halts. -/
def Control.target? (pc : Nat) : Control → Option Nat
  | .next => some (pc + 1)
  | .jump dest => some dest
  | .halt => none

def Instruction.isJump : Instruction → Bool
  | jump | jumpIf => true
  | _ => false

def Control.Stays (control : Control) : Prop := ∀ dest, control ≠ .jump dest

def Progress.Stays : Progress → Prop
  | .done control => control.Stays
  | .ask _ _ => True

namespace Execute

open Machine

variable (setup : Setup) (inv : Invocation) {i : Instruction} {m m' : Machine σ}

theorem start_sameCounter (hi : i.movesCounter = false) :
    (start setup inv i : Action (Machine σ) Progress).Keeps SameCounter := by
  refine start_keeps_of_data SameCounter.parts setup inv (fun h => ?_)
    (fun _ => SameCounter.onRun) (fun _ => SameCounter.note) fun _ output m => rfl
  rw [hi] at h
  cases h

/-- A push that succeeds stands on the last byte of its immediate. -/
theorem pc_of_push {size : Nat} {control : Control} (h : push inv size m = .ok control m') :
    m'.frame.pc = m.frame.pc + size := by
  obtain ⟨pc, m₁, hpc, h⟩ := Action.of_bind_ok h
  cases hpc
  obtain ⟨u, m₂, -, h⟩ := Action.of_bind_ok h
  obtain ⟨v, m₃, hset, h⟩ := Action.of_bind_ok h
  cases hset
  cases h
  rfl

theorem alone_ok {act : Action (Machine σ) Control} {progress : Progress}
    (h : alone act m = .ok progress m') : ∃ control, progress = .done control ∧
      act m = .ok control m' := by
  obtain ⟨control, m₁, hact, h⟩ := Action.of_bind_ok h
  cases h
  exact ⟨control, rfl, hact⟩

theorem pc_of_start {progress : Progress} (h : start setup inv i m = .ok progress m') :
    m'.frame.pc = m.frame.pc + i.immediateSize := by
  cases hi : i.movesCounter with
  | true =>
    cases i with
    | push size =>
      obtain ⟨control, -, hpush⟩ := alone_ok h
      exact pc_of_push inv hpush
    | _ => cases hi
  | false =>
    have hpc := start_sameCounter setup inv hi m
    rw [Action.final_of_ok h] at hpc
    have hsize : i.immediateSize = 0 := by
      cases i with
      | push size => cases hi
      | _ => rfl
    rw [hsize]
    exact hpc

/-- The machine that an instruction leaves stands on the instruction's last byte. -/
theorem pc_of_execute {host : Host σ} {control : Control}
    (h : execute setup host inv i m = .ok control m') :
    m'.frame.pc = m.frame.pc + i.immediateSize := by
  obtain ⟨progress, m₁, hs, h⟩ := Action.of_bind_ok h
  rw [← pc_of_start setup inv hs]
  cases progress with
  | done control =>
    cases h
    rfl
  | ask request resolution =>
    obtain ⟨u, m₂, hw, h⟩ := Action.of_bind_ok h
    have hframe : m₂.frame = m₁.frame := by
      have hf := final_onWorld m₁ (host inv request)
      rw [Action.final_of_ok hw] at hf
      rw [hf]
    have hr := resolve_keeps SameCounter.parts SameCounter.note (SameCounter.onRun _) resolution m₂
    rw [Action.final_of_ok h] at hr
    rw [hr, hframe]

/-- An instruction that is no jump does not ask for another place. -/
theorem start_stays (hi : i.isJump = false) :
    (start setup inv i : Action (Machine σ) Progress).Yields Progress.Stays := by
  have halone {act : Action (Machine σ) Control} (h : act.Yields Control.Stays) :
      (alone act).Yields Progress.Stays := by
    intro s progress t ht
    obtain ⟨control, rfl, hact⟩ := alone_ok ht
    exact h s control t hact
  have hask {P : Request → Resolution → Prop} {n : Nat} {act : Action (Machine σ) Progress}
      (h : ∀ m, Requested P n m (act m)) : act.Yields Progress.Stays := by
    intro s progress t ht
    have hs := h s
    rw [ht] at hs
    cases hs
    trivial
  cases i with
  | jump | jumpIf => cases hi
  | call kind => exact hask (call_requested kind)
  | create => exact hask create_requested
  | saltedCreate => exact hask saltedCreate_requested
  | stop | jumpDest => exact .pure nofun
  | undefined byte => exact .throw _
  | pop | returnDataCopy | dup | swap | log | invalid => exact halone (.bind fun _ => .pure nofun)
  | unary | blockHash | callDataLoad => exact halone (.bind fun _ => .bind fun _ => .pure nofun)
  | binary | quantity | push | selfBalance =>
    exact halone (.bind fun _ => .bind fun _ => .bind fun _ => .pure nofun)
  | ternary | mload | account | sload =>
    exact halone (.bind fun _ => .bind fun _ => .bind fun _ => .bind fun _ => .pure nofun)
  | keccak =>
    exact halone (.bind fun _ => .bind fun _ => .bind fun _ => .bind fun _ => .bind fun _ =>
      .pure nofun)
  | mstore | mstore8 =>
    exact halone (.bind fun ⟨⟨[_, _]⟩, _⟩ => .bind fun _ => .bind fun _ => .pure nofun)
  | copy =>
    exact halone (.bind fun ⟨⟨[_, _, _]⟩, _⟩ => .bind fun _ => .bind fun _ => .pure nofun)
  | extCodeCopy =>
    exact halone (.bind fun ⟨⟨[_, _, _, _]⟩, _⟩ => .bind fun _ => .bind fun _ => .bind fun _ =>
      .pure nofun)
  | sstore =>
    exact halone (.bind fun ⟨⟨[_, _]⟩, _⟩ => .bind fun _ => .bind fun _ => .bind fun _ =>
      .pure nofun)
  | selfDestruct =>
    exact halone (.bind fun _ => .bind fun _ => .bind fun _ => .bind fun _ => .bind fun _ =>
      .bind fun _ => .bind fun _ => .pure nofun)
  | ret | revert =>
    refine halone fun m control m' h => ?_
    rcases giveBack_cases m with ⟨m₁, hm, -⟩ | ⟨e, m₁, hm, -⟩
    · cases hm.symm.trans h
      exact nofun
    · cases hm.symm.trans h

theorem resolve_stays (resolution : Resolution) :
    (resolve resolution : Action (Machine σ) Control).Yields Control.Stays := by
  refine .bind fun aborted => ?_
  split
  · exact .pure nofun
  cases resolution with
  | create =>
    exact .bind fun _ => .bind fun _ => .bind fun _ => .bind fun _ => .pure nofun
  | call op output =>
    refine .bind fun _ => .bind fun _ => ?_
    split
    · exact .bind fun _ => .bind fun _ => .bind fun _ => .pure nofun
    · exact .bind fun _ => .bind fun _ => .pure nofun
    · exact .bind fun _ => .bind fun _ => .pure nofun

theorem jumpTo_eq_jump {code : Code} {w : Word} {dest : Nat} (h : jumpTo code w = .jump dest) :
    code.jumpTarget w = some dest := by
  unfold jumpTo at h
  cases ht : code.jumpTarget w with
  | none =>
    rw [ht] at h
    cases h
  | some i =>
    rw [ht] at h
    cases h
    rfl

/-- Another place is asked for by jumps only, and it is a jump destination of the code. -/
theorem jumpTarget_of_execute {host : Host σ} {dest : Nat}
    (h : execute setup host inv i m = .ok (.jump dest) m') :
    i.isJump = true ∧ ∃ w, inv.code.jumpTarget w = some dest := by
  obtain ⟨progress, m₁, hs, h⟩ := Action.of_bind_ok h
  cases progress with
  | ask request resolution =>
    obtain ⟨u, m₂, -, h⟩ := Action.of_bind_ok h
    exact absurd rfl (resolve_stays resolution m₂ _ _ h dest)
  | done control =>
    cases h
    cases hi : i.isJump with
    | false => exact absurd rfl (start_stays setup inv hi m _ _ hs dest)
    | true =>
      refine ⟨rfl, ?_⟩
      cases i with
      | jump =>
        obtain ⟨control, hc, hj⟩ := alone_ok hs
        obtain ⟨w, m₂, -, hj⟩ := Action.of_bind_ok hj
        cases hc
        injection hj with hdest
        exact ⟨w, jumpTo_eq_jump hdest⟩
      | jumpIf =>
        obtain ⟨control, hc, hj⟩ := alone_ok hs
        obtain ⟨⟨⟨ops⟩, hops⟩, m₂, -, hj⟩ := Action.of_bind_ok hj
        obtain ⟨w, condition, rfl⟩ := List.length_eq_two.1 hops
        cases hc
        injection hj with hdest
        exact ⟨w, jumpTo_eq_jump hdest⟩
      | _ => cases hi

end Execute

namespace Interpreter

open Machine

variable {inv : Invocation} {opcode : UInt8} {m m' : Machine σ}

theorem pc_of_moveOn {control : Control} (h : moveOn inv opcode control m = .ok true m') :
    control.target? m.frame.pc = some m'.frame.pc := by
  unfold moveOn at h
  rw [readRun_bind] at h
  cases ha : m.world.run.outcome.aborted with
  | true =>
    rw [ha, if_pos rfl, note_bind] at h
    cases h
  | false =>
    rw [ha] at h
    cases control with
    | next | jump dest =>
      cases h
      rfl
    | halt => cases h

/-- A frame goes on at the byte after its instruction, or at a jump destination. -/
theorem pc_of_advance {setup : Setup} {host : Host σ}
    (h : advance setup host inv opcode m = .ok true m') :
    m'.frame.pc = m.frame.pc + Code.stride opcode ∨
      ∃ w, inv.code.jumpTarget w = some m'.frame.pc := by
  rw [advance_eq, note_bind] at h
  obtain ⟨control, m₁, hx, h⟩ := Action.of_bind_ok h
  have hpc := pc_of_moveOn h
  cases control with
  | next =>
    injection hpc with hpc
    left
    rw [← hpc, Execute.pc_of_execute setup inv hx]
    rfl
  | jump dest =>
    injection hpc with hpc
    right
    rw [← hpc]
    exact (Execute.jumpTarget_of_execute setup inv hx).2
  | halt => cases hpc

end Interpreter

end SpeculativeEvm
