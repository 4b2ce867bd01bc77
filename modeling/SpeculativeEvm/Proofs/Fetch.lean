import SpeculativeEvm.Proofs.Execute.Counter

/-! Which bytes of its code a frame executes, whatever host answers its requests: only those that
start an instruction. The jump analysis, the pushes and the move to the next byte agree on how long
instructions are, so the counter never stands inside an immediate when an instruction is fetched. -/

namespace SpeculativeEvm

namespace Interpreter

variable {σ : Type} (setup : Setup) (host : Host σ) (inv : Invocation)

/-- The machines on which a frame executes its instructions, in order. -/
def turns : (budget : Nat) → Machine σ → List (Machine σ)
  | 0, _ => []
  | budget + 1, m =>
    match inv.code.bytes[m.frame.pc]? with
    | none => []
    | some opcode =>
      m :: match advance setup host inv opcode m with
        | .ok true m' => turns budget m'
        | _ => []

variable {setup host inv}

theorem runFor_of_turns_eq_nil {budget : Nat} {m : Machine σ}
    (h : turns setup host inv budget m = []) :
    runFor setup host inv budget m = runFor setup host inv 0 m := by
  cases budget with
  | zero => rfl
  | succ budget =>
    cases hc : inv.code.bytes[m.frame.pc]? with
    | none => rw [runFor_of_ended setup host _ hc, runFor_of_ended setup host _ hc]
    | some opcode =>
      rw [turns, hc] at h
      cases h

/-- The turns leave no instruction out: a frame's run comes to what its last one comes to, and to go
on after it is a fault. -/
theorem runFor_eq_of_lastTurn {budget : Nat} {m t : Machine σ}
    (ht : (turns setup host inv budget m).getLast? = some t) :
    ∃ opcode, inv.code.bytes[t.frame.pc]? = some opcode ∧
      runFor setup host inv budget m = (do
        if ← advance setup host inv opcode then runFor setup host inv 0) t := by
  induction budget generalizing m with
  | zero => cases ht
  | succ budget ih =>
    unfold turns at ht
    cases hc : inv.code.bytes[m.frame.pc]? with
    | none =>
      rw [hc] at ht
      cases ht
    | some opcode =>
      simp only [hc] at ht
      rw [runFor_of_opcode setup host budget hc]
      rcases ha : advance setup host inv opcode m with ⟨goesOn, m'⟩ | ⟨e, m'⟩
      · rw [Action.bind_of_ok ha]
        cases goesOn with
        | false =>
          rw [ha] at ht
          obtain rfl : m = t := Option.some.inj ht
          refine ⟨opcode, hc, ?_⟩
          rw [Action.bind_of_ok ha]
          rfl
        | true =>
          simp only [ha] at ht
          cases hn : turns setup host inv budget m' with
          | nil =>
            rw [hn] at ht
            obtain rfl : m = t := Option.some.inj ht
            refine ⟨opcode, hc, ?_⟩
            rw [Action.bind_of_ok ha]
            exact runFor_of_turns_eq_nil hn
          | cons t' rest =>
            rw [hn, List.getLast?_cons_cons, ← hn] at ht
            exact ih ht
      · rw [ha] at ht
        obtain rfl : m = t := Option.some.inj ht
        exact ⟨opcode, hc, (Action.bind_of_error ha).trans (Action.bind_of_error ha).symm⟩

/-- From an instruction start a frame goes on at an instruction start. -/
theorem boundary_of_advance {opcode : UInt8} {m m' : Machine σ}
    (hc : inv.code.bytes[m.frame.pc]? = some opcode)
    (hb : Code.Boundary inv.code.bytes m.frame.pc)
    (h : advance setup host inv opcode m = .ok true m') :
    Code.Boundary inv.code.bytes m'.frame.pc := by
  obtain ⟨hsize, hbyte⟩ := Array.getElem?_eq_some_iff.1 hc
  rcases pc_of_advance h with hpc | ⟨w, hw⟩
  · rw [hpc, ← hbyte]
    exact .next hsize hb
  · exact ((inv.code.jumpTarget_eq_some_iff w).1 hw).2.1

theorem boundary_of_mem_turns {budget : Nat} {m t : Machine σ}
    (hb : Code.Boundary inv.code.bytes m.frame.pc) (ht : t ∈ turns setup host inv budget m) :
    t.frame.pc < inv.code.size ∧ Code.Boundary inv.code.bytes t.frame.pc := by
  induction budget generalizing m with
  | zero => cases ht
  | succ budget ih =>
    unfold turns at ht
    cases hc : inv.code.bytes[m.frame.pc]? with
    | none =>
      rw [hc] at ht
      cases ht
    | some opcode =>
      simp only [hc, List.mem_cons] at ht
      rcases ht with rfl | ht
      · obtain ⟨hsize, -⟩ := Array.getElem?_eq_some_iff.1 hc
        exact ⟨hsize, hb⟩
      · rcases ha : advance setup host inv opcode m with ⟨goesOn, m'⟩ | ⟨e, m'⟩
        · cases goesOn with
          | true =>
            rw [ha] at ht
            exact ih (boundary_of_advance hc hb ha) ht
          | false =>
            rw [ha] at ht
            cases ht
        · rw [ha] at ht
          cases ht

end Interpreter

open Interpreter

/-- Wherever a frame fetches an instruction, one starts there, and no immediate holds the place. Any
instruction that sends the frame to another place is a jump, and the place holds a `JUMPDEST` that
starts an instruction. -/
theorem fetched_at_boundary {σ : Type} (setup : Setup) (host : Host σ) (inv : Invocation)
    (m : Machine σ) :
    (∀ t ∈ turns setup host inv setup.settings.maxSteps ⟨{ m.frame with pc := 0 }, m.world⟩,
      t.frame.pc < inv.code.size ∧ Code.Boundary inv.code.bytes t.frame.pc ∧
      ∀ i (h : i < inv.code.bytes.size), Code.Boundary inv.code.bytes i → i < t.frame.pc →
        i + (Instruction.decode inv.code.bytes[i]).immediateSize < t.frame.pc) ∧
    ∀ i t dest t', execute setup host inv i t = .ok (.jump dest) t' →
      i.isJump = true ∧ Code.Boundary inv.code.bytes dest ∧
        inv.code.bytes[dest]? = some Code.jumpDestByte := by
  constructor
  · intro t ht
    obtain ⟨hsize, hb⟩ := boundary_of_mem_turns .zero ht
    exact ⟨hsize, hb, fun i h hi hlt => hb.not_inside hi h hlt⟩
  · intro i t dest t' h
    obtain ⟨hi, w, hw⟩ := Execute.jumpTarget_of_execute setup inv h
    exact ⟨hi, ((inv.code.jumpTarget_eq_some_iff w).1 hw).2⟩

def bareSetup : Setup := ⟨{}, {}, Ledger.empty.committed⟩

def jumpingInside : Invocation :=
  ⟨.zero, .zero, 0, .ofBytes #[0x60, 5, 0x56, 0x61, 0x5b, 0x5b, 0x00], #[]⟩

def freshUnit : Machine Unit := ⟨.fresh 64, ⟨{}, (), {}⟩⟩

/-- The jump is not taken: the byte at 5 belongs to the push at 3. -/
theorem fetched_never_inside_push :
    ∀ t ∈ turns bareSetup (fun _ _ => pure ()) jumpingInside bareSetup.settings.maxSteps
      ⟨{ freshUnit.frame with pc := 0 }, freshUnit.world⟩, t.frame.pc ≠ 5 := by
  intro t ht hpc
  have h2 : Code.Boundary jumpingInside.code.bytes 2 :=
    .next (by decide : 0 < jumpingInside.code.bytes.size) .zero
  have h3 := Code.Boundary.next (by decide : 2 < jumpingInside.code.bytes.size) h2
  rw [(by decide : 2 + Code.stride jumpingInside.code.bytes[2] = 3)] at h3
  obtain ⟨-, -, h⟩ :=
    (fetched_at_boundary bareSetup (fun _ _ => pure ()) jumpingInside freshUnit).1 t ht
  have hlt := h 3 (by decide) h3 (by omega)
  rw [hpc] at hlt
  exact absurd hlt (by decide)

end SpeculativeEvm
