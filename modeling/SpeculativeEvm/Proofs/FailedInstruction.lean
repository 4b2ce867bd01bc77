import SpeculativeEvm.Proofs.Checked.Instruction
import SpeculativeEvm.Proofs.CallResolution
import SpeculativeEvm.Proofs.Execute.Raise
import SpeculativeEvm.Proofs.StackDiscipline

/-! What an instruction leaves behind when it faults. It may have taken operands off the stack, but
whatever else it does to its frame or to the run comes after the last of its steps that can fail.
Memory is written only once its range is accepted, and then a word can still be pushed, because the
operands of the instruction have made room for it. -/

namespace SpeculativeEvm

variable {σ α β : Type}

/-- A fault of the action leaves a state that `R` relates to the one the action started in. -/
def Action.Spares (R : σ → σ → Prop) (x : Action σ α) : Prop := ∀ s e t, x s = .error e t → R s t

namespace Action.Spares

variable {R : σ → σ → Prop} {x : Action σ α}

theorem of_keeps (h : x.Keeps R) : x.Spares R := by
  intro s e t he
  rw [← final_of_error he]
  exact h s

theorem of_total (h : ∀ s, ∃ a t, x s = .ok a t) : x.Spares R := by
  intro s e t he
  obtain ⟨a, t', ha⟩ := h s
  cases ha.symm.trans he

/-- A first part that keeps `R` leaves it to the second one to spare the state. -/
protected theorem bind [IsPreorder σ R] {f : α → Action σ β} (hx : x.Keeps R)
    (hf : ∀ a, (f a).Spares R) : (x >>= f).Spares R := by
  intro s e t he
  have hs := hx s
  rcases hr : x s with ⟨a, s'⟩ | ⟨e', s'⟩
  · rw [bind_of_ok hr] at he
    rw [final_of_ok hr] at hs
    exact trans_of R hs (hf a s' e t he)
  · rw [bind_of_error hr] at he
    rw [final_of_error hr] at hs
    cases he
    exact hs

/-- A second part that always succeeds may do anything. -/
theorem bind_total {f : α → Action σ β} (hx : x.Spares R)
    (hf : ∀ a s, ∃ b t, f a s = .ok b t) : (x >>= f).Spares R := by
  intro s e t he
  rcases hr : x s with ⟨a, s'⟩ | ⟨e', s'⟩
  · rw [bind_of_ok hr] at he
    obtain ⟨b, t', hb⟩ := hf a s'
    cases hb.symm.trans he
  · rw [bind_of_error hr] at he
    cases he
    exact hx s e t hr

end Action.Spares

/-! Memory that refuses a range stays as it is. -/

namespace Memory

theorem spares_of_worked {x : Action Memory α} {k : Memory → Memory} {offset size : Nat}
    (h : ∀ m, Worked offset size m (k m) (x m)) : x.Spares Eq := by
  intro m e t he
  have hw := h m
  rw [he] at hw
  cases hw with
  | refused => rfl

theorem set_spares (offset size : Nat) (value : Bytes) : (set offset size value).Spares Eq :=
  spares_of_worked fun m => m.set_worked offset size value

theorem copyFrom_spares (offset size : Nat) (source : Bytes) (start : Nat) :
    (copyFrom offset size source start).Spares Eq :=
  spares_of_worked fun m => m.copyFrom_worked offset size source start

theorem load_spares (offset : Nat) : (load offset).Spares Eq :=
  .bind_total (spares_of_worked fun m => m.expand_worked offset 32) fun _ _ => ⟨_, _, rfl⟩

end Memory

namespace Machine

structure SameData (m m' : Machine σ) : Prop where
  memory : m'.frame.memory = m.frame.memory
  output : m'.frame.output = m.frame.output
  pc : m'.frame.pc = m.frame.pc

structure StackChange (m m' : Machine σ) : Prop extends SameData m m' where
  world : m'.world = m.world

instance : IsPreorder (Machine σ) SameData where
  refl _ := ⟨rfl, rfl, rfl⟩
  trans _ _ _ h h' := ⟨h'.memory.trans h.memory, h'.output.trans h.output, h'.pc.trans h.pc⟩

instance : IsPreorder (Machine σ) StackChange where
  refl m := ⟨refl_of SameData m, rfl⟩
  trans _ _ _ h h' := ⟨trans_of SameData h.toSameData h'.toSameData, h'.world.trans h.world⟩

namespace StackChange

theorem onStack (act : Action Stack α) : (onStack act).Keeps (StackChange (σ := σ)) := by
  intro m
  rw [final_onStack]
  exact ⟨⟨rfl, rfl, rfl⟩, rfl⟩

theorem read (offset size : Nat) :
    (onMemory (Memory.get offset size)).Keeps (StackChange (σ := σ)) := by
  intro m
  have hm : (Memory.get offset size).final m.frame.memory = m.frame.memory := by
    rcases m.frame.memory.get_cases offset size with ⟨data, h⟩ | ⟨e, h⟩
    · exact Action.final_of_ok h
    · exact Action.final_of_error h
  rw [final_onMemory, hm]
  exact refl_of StackChange m

theorem check (r : Except Fault α) : (check r).Keeps (StackChange (σ := σ)) := by
  intro m
  rw [final_check]
  exact refl_of StackChange m

theorem readRun (f : Speculation → α) : (readRun f).Keeps (StackChange (σ := σ)) :=
  refl_of StackChange

theorem onMemory {act : Action Memory α} (h : act.Spares Eq) :
    (onMemory act).Spares (StackChange (σ := σ)) := by
  intro m e t he
  rw [onMemory_apply] at he
  rcases hr : act m.frame.memory with ⟨a, memory⟩ | ⟨e', memory⟩
  · rw [hr] at he
    cases he
  · rw [hr] at he
    cases he
    obtain rfl := h _ _ _ hr
    exact refl_of StackChange m

end StackChange

end Machine

namespace Execute

open Machine

section Alone

theorem alone_spares {R : Machine σ → Machine σ → Prop} {act : Action (Machine σ) Control}
    (h : act.Spares R) : (alone act).Spares R :=
  .bind_total h fun _ _ => ⟨_, _, rfl⟩

theorem pushWord_stackChange (w : Word) : (pushWord w).Keeps (StackChange (σ := σ)) :=
  .bind (.onStack _) fun _ => .pure _

theorem drop_stackChange (n : Nat) : (drop n).Keeps (StackChange (σ := σ)) := by
  induction n with
  | zero => exact .pure _
  | succ n ih => exact .bind (.map (.onStack _)) fun _ => ih

/-- The memory grows before the word is put on the stack, where there is a place for it: the one of
the offset. -/
theorem mload_spares : mload.Spares (StackChange (σ := σ)) := by
  intro m e t he
  rw [mload, onStack_bind] at he
  obtain ⟨⟨pc, ⟨words⟩, memory, output⟩, world⟩ := m
  cases words with
  | nil =>
    cases he
    exact refl_of StackChange _
  | cons w rest =>
    simp only [Stack.peek, check_bind] at he
    rcases hw : indexOf w with e' | offset
    · simp only [hw] at he
      cases he
      exact refl_of StackChange _
    · simp only [hw, onMemory_bind] at he
      rcases hl : Memory.load offset memory with ⟨value, memory'⟩ | ⟨e', memory'⟩
      · simp only [hl] at he
        cases he
      · simp only [hl] at he
        cases he
        obtain rfl := Memory.load_spares offset _ _ _ hl
        exact refl_of StackChange _

theorem giveBack_spares : giveBack.Spares (StackChange (σ := σ)) := by
  refine .bind (.onStack _) fun ⟨⟨[_, _]⟩, _⟩ => .bind (.check _) fun _ =>
    .bind_total (.of_keeps (.read _ _)) fun output m => ?_
  split <;> exact ⟨_, _, rfl⟩

/-- Neither a request nor the balance of the frame's own account: what an instruction changes beyond
the stack, it changes after all that can fail. -/
theorem start_spares (setup : Setup) (inv : Invocation) {i : Instruction}
    (ha : i.asksBelow = false) (hb : i ≠ .selfBalance) :
    (start setup inv i).Spares (StackChange (σ := σ)) := by
  cases i with
  | stop | jumpDest => exact .of_keeps (.pure _)
  | undefined byte => exact .of_keeps (.throw _)
  | unary | blockHash | callDataLoad =>
    exact alone_spares (.of_keeps (.bind (.onStack _) fun _ => .bind (.onStack _) fun _ => .pure _))
  | binary =>
    exact alone_spares (.of_keeps (.bind (.onStack _) fun _ => .bind (.onStack _) fun _ =>
      .bind (.onStack _) fun _ => .pure _))
  | ternary =>
    exact alone_spares (.of_keeps (.bind (.onStack _) fun _ => .bind (.onStack _) fun _ =>
      .bind (.onStack _) fun _ => .bind (.onStack _) fun _ => .pure _))
  | keccak =>
    exact alone_spares (.of_keeps (.bind (.onStack _) fun _ => .bind (.onStack _) fun _ =>
      .bind (.check _) fun _ => .bind (.read _ _) fun _ => .bind (.onStack _) fun _ => .pure _))
  | quantity =>
    exact alone_spares (.of_keeps (.bind .get fun _ => .bind (.check _) fun _ =>
      pushWord_stackChange _))
  | returnDataCopy =>
    exact alone_spares (.of_keeps (.bind (.map (.onStack _)) fun _ => .pure _))
  | pop => exact alone_spares (.of_keeps (.bind (.map (.onStack _)) fun _ => .pure _))
  | jump => exact alone_spares (.of_keeps (.bind (.onStack _) fun _ => .pure _))
  | jumpIf =>
    exact alone_spares (.of_keeps (.bind (.onStack _) fun ⟨⟨[_, _]⟩, _⟩ => .pure _))
  | dup | swap => exact alone_spares (.of_keeps (.bind (.onStack _) fun _ => .pure _))
  | log topics => exact alone_spares (.of_keeps (.bind (drop_stackChange _) fun _ => .pure _))
  | copy =>
    exact alone_spares (.bind (.onStack _) fun ⟨⟨[_, _, _]⟩, _⟩ => .bind (.check _) fun _ =>
      .bind_total (.onMemory (Memory.copyFrom_spares _ _ _ _)) fun _ _ => ⟨_, _, rfl⟩)
  | mload => exact alone_spares mload_spares
  | mstore | mstore8 =>
    exact alone_spares (.bind (.onStack _) fun ⟨⟨[_, _]⟩, _⟩ => .bind (.check _) fun _ =>
      .bind_total (.onMemory (Memory.set_spares _ _ _)) fun _ _ => ⟨_, _, rfl⟩)
  | push =>
    exact alone_spares (.bind (refl_of StackChange) fun _ =>
      .bind_total (.of_keeps (.onStack _)) fun _ _ => ⟨_, _, rfl⟩)
  | account =>
    exact alone_spares (.bind (.onStack _) fun _ => .bind .get fun _ =>
      .bind_total (.of_keeps (.onStack _)) fun _ _ => ⟨_, _, rfl⟩)
  | extCodeCopy =>
    exact alone_spares (.bind (.onStack _) fun ⟨⟨[_, _, _, _]⟩, _⟩ => .bind (.check _) fun _ =>
      .bind_total (.onMemory (Memory.copyFrom_spares _ _ _ _)) fun _ _ => ⟨_, _, rfl⟩)
  | sload =>
    exact alone_spares (.bind (.onStack _) fun _ => .bind (.readRun _) fun _ =>
      .bind_total (.of_keeps (.onStack _)) fun _ _ => ⟨_, _, rfl⟩)
  | sstore =>
    refine alone_spares (.bind_total (.of_keeps (.onStack _)) fun ⟨⟨[_, _]⟩, _⟩ m => ?_)
    simp only [note_bind]
    exact ⟨_, _, rfl⟩
  | selfDestruct =>
    refine alone_spares (.bind_total (.of_keeps (.onStack _)) fun _ m => ?_)
    simp only [readRun_bind, onRun_bind, note_bind]
    exact ⟨_, _, rfl⟩
  | invalid => exact alone_spares (.of_total fun _ => ⟨_, _, rfl⟩)
  | ret | revert => exact alone_spares giveBack_spares
  | selfBalance => exact absurd rfl hb
  | call | create | saltedCreate => cases ha

theorem selfBalance_error (setup : Setup) (inv : Invocation) {m t : Machine σ} {e : Fault}
    (h : start setup inv .selfBalance m = .error e t) :
    t = ⟨m.frame, { m.world with run := m.world.run.recordRead inv.address }⟩ := by
  have hs : (selfBalance setup inv).Spares fun m t : Machine σ =>
      t = ⟨m.frame, { m.world with run := m.world.run.recordRead inv.address }⟩ := by
    intro m e t he
    rw [selfBalance, readRun_bind, onRun_bind, pushWord_apply] at he
    split at he
    · cases he
    · cases he
      rfl
  exact alone_spares hs m e t h

end Alone

/-! Requests, up to the host and after it. -/

theorem beginRequest_sameData (op : String) (target : Option Address) :
    (beginRequest op target).Keeps (SameData (σ := σ)) := by
  refine .bind (fun m => ⟨rfl, rfl, rfl⟩) fun _ m => ?_
  rw [final_note]
  exact ⟨rfl, rfl, rfl⟩

theorem askCall_sameData (kind : CallKind) (target : Address) (input output : Except Fault Span)
    (request : Bytes → Request) :
    (askCall kind target input output request).Keeps (SameData (σ := σ)) :=
  .bind ((StackChange.check _).mono (·.toSameData)) fun _ =>
    .bind ((StackChange.check _).mono (·.toSameData)) fun _ =>
      .bind (beginRequest_sameData _ _) fun _ =>
        .bind ((StackChange.read _ _).mono (·.toSameData)) fun _ => .pure _

theorem askCreate_sameData (op : String) (init : Except Fault Span) (request : Bytes → Request) :
    (askCreate op init request).Keeps (SameData (σ := σ)) :=
  .bind ((StackChange.check _).mono (·.toSameData)) fun _ =>
    .bind ((StackChange.read _ _).mono (·.toSameData)) fun _ =>
      .bind (beginRequest_sameData _ _) fun _ => .pure _

/-- A request reads the memory and changes nothing of the frame but the stack. -/
theorem start_sameData (setup : Setup) (inv : Invocation) {i : Instruction}
    (h : i.asksBelow = true) : (start setup inv i).Keeps (SameData (σ := σ)) := by
  have hpop (n : Nat) : (onStack (Stack.popN n)).Keeps (SameData (σ := σ)) :=
    (StackChange.onStack _).mono (·.toSameData)
  cases i with
  | call kind =>
    cases kind with
    | call | callCode =>
      exact .bind (hpop 7) fun ⟨⟨[_, _, _, _, _, _, _]⟩, _⟩ => askCall_sameData _ _ _ _ _
    | delegateCall | staticCall =>
      exact .bind (hpop 6) fun ⟨⟨[_, _, _, _, _, _]⟩, _⟩ => askCall_sameData _ _ _ _ _
  | create => exact .bind (hpop 3) fun ⟨⟨[_, _, _]⟩, _⟩ => askCreate_sameData _ _ _
  | saltedCreate => exact .bind (hpop 4) fun ⟨⟨[_, _, _, _]⟩, _⟩ => askCreate_sameData _ _ _
  | _ => cases h

/-- With room on the stack, all that a resolution can fail at is to write the payload to memory. -/
theorem resolve_spares {resolution : Resolution} {m t : Machine σ} {e : Fault}
    (hroom : m.frame.stack.depth < maxStackDepth) (h : resolve resolution m = .error e t) :
    SameData m t := by
  cases ha : m.world.run.outcome.aborted with
  | true =>
    rw [resolve_of_aborted ha] at h
    cases h
  | false =>
    rw [resolve_of_not_aborted ha] at h
    cases resolution with
    | create =>
      obtain ⟨journal, hr⟩ := resolveCreate_apply m
      simp only [hr, pushWord_apply, if_pos hroom] at h
      cases h
    | call op output =>
      by_cases hp : ∃ payload, m.world.run.payloads (m.world.run.level + 1) = [payload]
      · obtain ⟨payload, hp⟩ := hp
        obtain ⟨journal, hr⟩ := resolveCall_of_singleton op output hp
        simp only [hr, onMemory_bind] at h
        rcases hs : Memory.set output.offset output.size payload m.frame.memory with
          ⟨u, memory⟩ | ⟨e', memory⟩
        · simp only [hs, pushWord_apply] at h
          rw [if_pos hroom] at h
          cases h
        · simp only [hs] at h
          cases h
          exact ⟨(Memory.set_spares _ _ _ _ _ _ hs).symm, rfl, rfl⟩
      · obtain ⟨journal, hr⟩ := resolveCall_of_ne_singleton op output (not_exists.1 hp)
        simp only [hr] at h
        cases h

section Failed

variable {setup : Setup} {inv : Invocation} {i : Instruction} {m t : Machine σ} {e : Fault}

/-- An instruction that fails by itself. -/
theorem failed_start (h : start setup inv i m = .error e t) : SameData m t ∧
    (i.asksBelow = false → t.world = m.world ∨ i = .selfBalance ∧
      t.world = { m.world with run := m.world.run.recordRead inv.address }) := by
  cases ha : i.asksBelow with
  | true =>
    have hd := start_sameData setup inv ha m
    rw [Action.final_of_error h] at hd
    exact ⟨hd, nofun⟩
  | false =>
    by_cases hb : i = .selfBalance
    · subst hb
      obtain rfl := selfBalance_error setup inv h
      exact ⟨⟨rfl, rfl, rfl⟩, fun _ => .inr ⟨rfl, rfl⟩⟩
    · have hk := start_spares setup inv ha hb m e t h
      exact ⟨hk.toSameData, fun _ => .inl hk.world⟩

/-- An instruction that fails when the host is asked, or has answered. -/
theorem failed_request {host : Host σ} {request : Request} {resolution : Resolution}
    {m₁ : Machine σ} (hm : m.frame.stack.depth ≤ maxStackDepth)
    (hs : start setup inv i m = .ok (.ask request resolution) m₁)
    (h : execute setup host inv i m = .error e t) : SameData m t := by
  obtain ⟨hasks, hasking⟩ := start_ask setup inv hs
  have hd := start_sameData setup inv hasks.asksBelow m
  rw [Action.final_of_ok hs] at hd
  rw [execute, Action.bind_of_ok hs] at h
  simp only [onWorld_bind] at h
  rcases hw : host inv request m₁.world with ⟨u, w⟩ | ⟨e', w⟩
  · simp only [hw] at h
    have hroom := depth_lt_of_asking hasks.requestArity_pos hm hasking
    have hr := resolve_spares (m := ⟨m₁.frame, w⟩) hroom h
    exact ⟨hr.memory.trans hd.memory, hr.output.trans hd.output, hr.pc.trans hd.pc⟩
  · simp only [hw] at h
    cases h
    exact ⟨hd.memory, hd.output, hd.pc⟩

end Failed

end Execute

open Execute Machine

/-- An instruction that faults leaves the frame's memory, output and counter as they were. Unless it
is one that asks the host, it also leaves the world as it was, except that the read of the frame's
own account is recorded when there is no room to push its balance. The bound on the stack is the one
that pushing keeps: with more words than that, a call could write its payload to memory and then
have no room for its result. -/
theorem failed_instruction (setup : Setup) (host : Host σ) (inv : Invocation) (i : Instruction)
    {m t : Machine σ} {e : Fault} (hm : m.frame.stack.depth ≤ maxStackDepth)
    (h : execute setup host inv i m = .error e t) :
    t.frame.memory = m.frame.memory ∧ t.frame.output = m.frame.output ∧
    t.frame.pc = m.frame.pc ∧
    (i.asksBelow = false → t.world = m.world ∨ i = .selfBalance ∧
      t.world = { m.world with run := m.world.run.recordRead inv.address }) := by
  rcases hs : start setup inv i m with ⟨control | ⟨request, resolution⟩, m₁⟩ | ⟨e', t'⟩
  · rw [execute, Action.bind_of_ok hs] at h
    cases h
  · have hd := failed_request hm hs h
    have hasks := (start_ask setup inv hs).1.asksBelow
    exact ⟨hd.memory, hd.output, hd.pc, fun ha => absurd hasks (Bool.eq_false_iff.1 ha)⟩
  · rw [execute, Action.bind_of_error hs] at h
    cases h
    obtain ⟨hd, hw⟩ := failed_start hs
    exact ⟨hd.memory, hd.output, hd.pc, hw⟩

def callingPastLimit : Machine Unit :=
  ⟨⟨0, ⟨[0, 1, 0, 0, 0, 63, 2]⟩, ⟨#[5], 64⟩, #[]⟩, freshUnit.world⟩

/-- The host has recorded a payload, and the memory is still the one byte. -/
theorem callingPastLimit_keeps_memory : ∃ t,
    execute bareSetup addingSevenTwice jumpingInside (.call .call) callingPastLimit =
      .error (.memoryLimitExceeded 65 64) t ∧
    t.frame.memory.data = #[5] ∧ t.world.run.payloads 1 = [#[7]] := by
  have h : execute bareSetup addingSevenTwice jumpingInside (.call .call) callingPastLimit =
      .error (.memoryLimitExceeded 65 64)
        ((execute bareSetup addingSevenTwice jumpingInside (.call .call)).final
          callingPastLimit) := rfl
  obtain ⟨hmem, -⟩ :=
    failed_instruction bareSetup addingSevenTwice jumpingInside (.call .call) (by decide) h
  exact ⟨_, h, congrArg Memory.data hmem, by decide +kernel⟩

end SpeculativeEvm
