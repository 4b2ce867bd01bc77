import Mathlib.Data.List.Basic
import SpeculativeEvm.Proofs.Execute.Request

/-! What one instruction does to the state of the run before the host is asked: nothing, or the one
change that its kind of instruction makes. Facts about every instruction of a run then need one case
for each kind of change. -/

namespace SpeculativeEvm

namespace Speculation

def store (s : Speculation) (a : Address) (slot value : Word) : Speculation :=
  recordWrite { s with overlay := s.overlay.setStorage a slot value } a

/-- Credits the balance of `a` to the beneficiary; `a` counts as self-destructed. -/
def bequeath (s : Speculation) (c : Committed) (a beneficiary : Address) : Speculation :=
  let overlay := s.overlay.credit c beneficiary (s.overlay.viewBalance c a)
  ((recordRead { s with overlay } a).recordWrite beneficiary).markSelfDestructed

/-- Records what a frame hands back at its own level; no bytes are not recorded. -/
def handBack (s : Speculation) (output : Bytes) : Speculation :=
  if output.size ≠ 0 then s.addPayload s.level output else s

theorem handBack_eq (s : Speculation) (output : Bytes) :
    ∃ returned, s.handBack output = { s with returned } := by
  unfold handBack
  by_cases hz : output.size ≠ 0
  · rw [if_pos hz]
    by_cases hm : output ∈ s.payloads s.level
    · rw [addPayload_of_mem hm]
      exact ⟨s.returned, rfl⟩
    · simp only [addPayload, if_neg hm]
      exact ⟨_, rfl⟩
  · rw [if_neg hz]
    exact ⟨s.returned, rfl⟩

end Speculation

def Machine.SameOutput {σ : Type} (m m' : Machine σ) : Prop := m'.frame.output = m.frame.output

namespace Machine.SameOutput

variable {σ : Type}

instance : IsPreorder (Machine σ) SameOutput where
  refl _ := rfl
  trans _ _ _ h h' := h'.trans h

theorem parts : Parts (SameOutput (σ := σ)) :=
  .of_localChange LocalChange.output

end Machine.SameOutput

namespace Execute

open Machine

variable {σ : Type}

/-- The changes that the instructions of a frame make. Of one that faults it may be `none`. -/
inductive Effect (setup : Setup) (inv : Invocation) (s : Speculation) :
    Instruction → Speculation → Prop
  | none (i : Instruction) : Effect setup inv s i s
  | account (query : AccountQuery) (a : Address) :
    Effect setup inv s (.account query) (s.recordRead a)
  | extCodeCopy (a : Address) : Effect setup inv s .extCodeCopy (s.recordRead a)
  | selfBalance : Effect setup inv s .selfBalance (s.recordRead inv.address)
  | sload : Effect setup inv s .sload (s.recordRead inv.address)
  | sstore (slot value : Word) : Effect setup inv s .sstore (s.store inv.address slot value)
  | selfDestruct (beneficiary : Address) :
    Effect setup inv s .selfDestruct (s.bequeath setup.committed inv.address beneficiary)
  | invalid : Effect setup inv s .invalid s.fail
  | handBack {i : Instruction} (h : i.givesBack) (output : Bytes) :
    Effect setup inv s i (s.handBack output)
  | clearBelow (i : Instruction) : Effect setup inv s i s.clearBelow

variable (setup : Setup) (inv : Invocation) (m : Machine σ)

theorem final_alone (act : Action (Machine σ) Control) : (alone act).final m = act.final m := by
  rcases Action.final_bind_cases act (fun c => pure (Progress.done c)) m with ⟨c, -, h⟩ | ⟨-, h⟩
  · exact h
  · exact h

theorem account_effect (query : AccountQuery) :
    Effect setup inv m.world.run (.account query) ((account setup query).final m).world.run := by
  rw [account, Action.final, onStack_bind]
  rcases Stack.peek m.frame.stack with ⟨w, stack⟩ | ⟨e, stack⟩
  · simp only [get_bind, onStack_bind]
    rcases Stack.poke _ stack with ⟨-, stack⟩ | ⟨e, stack⟩
    · exact .account query (.ofWord w)
    · exact .none _
  · exact .none _

theorem selfBalance_effect :
    Effect setup inv m.world.run .selfBalance ((selfBalance setup inv).final m).world.run := by
  rw [selfBalance, Action.final, readRun_bind, onRun_bind, ← Action.final,
    (pushWord_keeps LocalChange.parts.data _ _).world]
  exact .selfBalance

theorem extCodeCopy_effect :
    Effect setup inv m.world.run .extCodeCopy ((extCodeCopy setup).final m).world.run := by
  rw [extCodeCopy, Action.final, onStack_bind]
  rcases Stack.popN 4 m.frame.stack with ⟨⟨⟨ops⟩, h⟩, stack⟩ | ⟨e, stack⟩
  · obtain ⟨source, offset, start, size, rfl⟩ := List.length_eq_four.1 h
    simp only [check_bind]
    rcases spanOf offset size with e | target
    · exact .none _
    · simp only [copyToMemory, onMemory_bind]
      rcases Memory.copyFrom _ _ _ _ m.frame.memory with ⟨-, memory⟩ | ⟨e, memory⟩
      · exact .extCodeCopy (.ofWord source)
      · exact .none _
  · exact .none _

theorem sload_effect :
    Effect setup inv m.world.run .sload ((sload setup inv).final m).world.run := by
  rw [sload, Action.final, onStack_bind]
  rcases Stack.peek m.frame.stack with ⟨w, stack⟩ | ⟨e, stack⟩
  · simp only [readRun_bind, onStack_bind]
    rcases Stack.poke _ stack with ⟨-, stack⟩ | ⟨e, stack⟩
    · exact .sload
    · exact .none _
  · exact .none _

theorem sstore_effect :
    Effect setup inv m.world.run .sstore ((sstore inv).final m).world.run := by
  rw [sstore, Action.final, onStack_bind]
  rcases Stack.popN 2 m.frame.stack with ⟨⟨⟨ops⟩, h⟩, stack⟩ | ⟨e, stack⟩
  · obtain ⟨slot, value, rfl⟩ := List.length_eq_two.1 h
    simp only [note_bind, onRun_bind]
    exact .sstore slot value
  · exact .none _

theorem selfDestruct_effect :
    Effect setup inv m.world.run .selfDestruct ((selfDestruct setup inv).final m).world.run := by
  rw [selfDestruct, Action.final, onStack_bind]
  rcases Stack.pop m.frame.stack with ⟨w, stack⟩ | ⟨e, stack⟩
  · simp only [readRun_bind, onRun_bind, note_bind]
    exact .selfDestruct (.ofWord w)
  · exact .none _

/-- A frame's output is handed back as a whole, and that ends the frame, or nothing happens. -/
theorem giveBack_cases :
    (∃ m', giveBack m = .ok .halt m' ∧ m'.world.run = m.world.run.handBack m'.frame.output) ∨
      ∃ e m', giveBack m = .error e m' ∧ LocalChange m m' := by
  rw [giveBack, onStack_bind]
  rcases Stack.popN 2 m.frame.stack with ⟨⟨⟨ops⟩, h⟩, stack⟩ | ⟨e, stack⟩
  · obtain ⟨offset, size, rfl⟩ := List.length_eq_two.1 h
    simp only [check_bind]
    rcases spanOf offset size with e | source
    · exact .inr ⟨e, _, rfl, rfl, rfl⟩
    · simp only [onMemory_bind]
      rcases Memory.get _ _ m.frame.memory with ⟨output, memory⟩ | ⟨e, memory⟩
      · refine .inl ?_
        by_cases h : output.size ≠ 0
        · simp only [if_pos h, onRun_bind, setOutput_bind]
          exact ⟨_, rfl, by rw [Speculation.handBack, if_pos h]⟩
        · simp only [if_neg h, setOutput_bind]
          exact ⟨_, rfl, by rw [Speculation.handBack, if_neg h]⟩
      · exact .inr ⟨e, _, rfl, rfl, rfl⟩
  · exact .inr ⟨e, _, rfl, rfl, rfl⟩

theorem giveBack_effect {i : Instruction} (h : i.givesBack) :
    Effect setup inv m.world.run i (giveBack.final m).world.run := by
  rcases giveBack_cases m with ⟨m', hm, hr⟩ | ⟨e, m', hm, hl⟩
  · rw [Action.final_of_ok hm, hr]
    exact .handBack h _
  · rw [Action.final_of_error hm, hl.world]
    exact .none _

theorem effect_of_requested {P : Request → Resolution → Prop} {n : Nat} (i : Instruction)
    {act : Action (Machine σ) Progress} (h : Requested P n m (act m)) :
    Effect setup inv m.world.run i (act.final m).world.run := by
  rw [Action.final]
  generalize act m = r at h
  cases h with
  | asked _ ha =>
    exact ha.run ▸ .clearBelow i
  | failed hu =>
    rcases hu.run with hr | hr
    · exact hr ▸ .none i
    · exact hr ▸ .clearBelow i

/-- The change of an instruction, whether or not it faults. -/
theorem start_effect (i : Instruction) :
    Effect setup inv m.world.run i ((start setup inv i).final m).world.run := by
  cases hi : i.isLocal with
  | true =>
    rw [(start_localChange setup inv hi m).world]
    exact .none i
  | false =>
    cases i with
    | account query => exact final_alone m _ ▸ account_effect setup inv m query
    | selfBalance => exact final_alone m _ ▸ selfBalance_effect setup inv m
    | extCodeCopy => exact final_alone m _ ▸ extCodeCopy_effect setup inv m
    | sload => exact final_alone m _ ▸ sload_effect setup inv m
    | sstore => exact final_alone m _ ▸ sstore_effect setup inv m
    | selfDestruct => exact final_alone m _ ▸ selfDestruct_effect setup inv m
    | invalid => exact .invalid
    | ret => exact final_alone m _ ▸ giveBack_effect setup inv m (i := .ret) rfl
    | revert => exact final_alone m _ ▸ giveBack_effect setup inv m (i := .revert) rfl
    | call kind => exact effect_of_requested setup inv m _ (call_requested kind m)
    | create => exact effect_of_requested setup inv m _ (create_requested m)
    | saltedCreate => exact effect_of_requested setup inv m _ (saltedCreate_requested m)
    | _ => cases hi

/-- No other instructions than those that hand back touch the frame's output. -/
theorem start_sameOutput {i : Instruction} (hi : i.givesBack = false) :
    (start setup inv i : Action (Machine σ) Progress).Keeps SameOutput := by
  refine start_keeps SameOutput.parts setup inv (fun _ f m => rfl) (fun _ event m => ?_) fun h => ?_
  · rw [final_note]
    rfl
  · rw [hi] at h
    cases h

end Execute

end SpeculativeEvm
