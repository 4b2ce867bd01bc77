import SpeculativeEvm.Proofs.Nesting.Respected

/-! What a run depends on. Of the committed state it can see all code and nonces, and the balance
and storage of the accounts it has recorded by its end. No account is ever taken out of the record,
so what two committed states have to agree on at the end of a run covers what they have to agree on
at every step of it. -/

namespace SpeculativeEvm

def AccessSet.Touches (s : AccessSet) (a : Address) : Prop := (s.kindOf a).isSome

theorem AccessSet.touches_record (s : AccessSet) (access : Access) (a : Address) :
    (s.record access).Touches a ↔ access.address = a ∨ s.Touches a := by
  unfold Touches
  rw [kindOf_record]
  by_cases h : access.address = a <;> simp [h]

/-- The second committed state has all code and nonces of the first one, and the balance and storage
of the accounts in `s`. -/
structure Committed.AgreeOn (c c' : Committed) (s : AccessSet) : Prop where
  code (a : Address) : c'.code a = c.code a
  nonce (a : Address) : c'.nonce a = c.nonce a
  balance {a : Address} (h : s.Touches a) : c'.balance a = c.balance a
  storage {a : Address} (h : s.Touches a) (slot : Word) : c'.storage a slot = c.storage a slot

def Speculation.Grows (s t : Speculation) : Prop :=
  ∀ a, s.accesses.Touches a → t.accesses.Touches a

def Setup.on (setup : Setup) (c : Committed) : Setup := { setup with committed := c }

variable {c c' : Committed} {s t : Speculation}

theorem Committed.AgreeOn.of_grows (h : c.AgreeOn c' t.accesses) (hg : s.Grows t) :
    c.AgreeOn c' s.accesses :=
  ⟨h.code, h.nonce, fun ha => h.balance (hg _ ha), fun ha => h.storage (hg _ ha)⟩

namespace Speculation

theorem Grows.of_accesses_eq (h : t.accesses = s.accesses) : s.Grows t := by
  intro a ha
  rwa [h]

theorem grows_record (s : Speculation) (access : Access) :
    s.Grows { s with accesses := s.accesses.record access } :=
  fun a ha => (s.accesses.touches_record access a).2 (.inr ha)

instance : IsPreorder Speculation Grows where
  refl _ _ h := h
  trans _ _ _ h h' a ha := h' a (h a ha)

instance {τ : Type} (run : τ → Speculation) : IsPreorder τ fun s t => (run s).Grows (run t) where
  refl s := refl_of Grows (run s)
  trans _ _ _ h h' := trans_of Grows h h'

theorem grows_respected (setup : Setup) : Respected setup Grows where
  effect {inv s t i} he := by
    cases he with
    | none => exact refl_of Grows s
    | account query a => exact s.grows_record ⟨a, .read⟩
    | extCodeCopy a => exact s.grows_record ⟨a, .read⟩
    | selfBalance => exact s.grows_record ⟨_, .read⟩
    | sload => exact s.grows_record ⟨_, .read⟩
    | sstore => exact s.grows_record ⟨_, .write⟩
    | selfDestruct beneficiary =>
      have hr := s.grows_record ⟨inv.address, .read⟩
      exact trans_of Grows hr (grows_record _ ⟨beneficiary, .write⟩)
    | invalid => exact .of_accesses_eq rfl
    | handBack _ output =>
      obtain ⟨returned, he⟩ := s.handBack_eq output
      exact .of_accesses_eq (he ▸ rfl)
    | clearBelow => exact .of_accesses_eq rfl
  abort _ := .of_accesses_eq rfl
  setCreated _ _ := .of_accesses_eq rfl
  nested h := h

end Speculation

/-- Two actions of which the second does what the first one does, wherever the committed states
agree on all that the first one has recorded when it ends. -/
structure Alike {τ α : Type} (c c' : Committed) (run : τ → Speculation) (x x' : Action τ α) :
    Prop where
  keeps : x.Keeps fun s t => (run s).Grows (run t)
  eq {s : τ} (h : c.AgreeOn c' (run (x.final s)).accesses) : x' s = x s

abbrev MachineAlike {σ α : Type} (setup : Setup) (c' : Committed) (x x' : Action (Machine σ) α) :
    Prop :=
  Alike setup.committed c' (fun m => m.world.run) x x'

abbrev WorldAlike {σ α : Type} (setup : Setup) (c' : Committed) (x x' : Action (World σ) α) :
    Prop :=
  Alike setup.committed c' (fun w => w.run) x x'

namespace Alike

variable {τ α β : Type} {run : τ → Speculation} {x x' : Action τ α}

protected theorem refl (h : x.Keeps fun s t => (run s).Grows (run t)) : Alike c c' run x x :=
  ⟨h, fun _ => rfl⟩

protected theorem bind {f f' : α → Action τ β} (hx : Alike c c' run x x')
    (hf : ∀ a, Alike c c' run (f a) (f' a)) : Alike c c' run (x >>= f) (x' >>= f') := by
  refine ⟨.bind hx.keeps fun a => (hf a).keeps, fun {s} h => ?_⟩
  rcases Action.final_bind_cases x f s with ⟨a, ha, he⟩ | ⟨⟨e, ha⟩, he⟩
  · rw [he] at h
    have hs := hx.eq (h.of_grows ((hf a).keeps _))
    rw [ha] at hs
    rw [Action.bind_of_ok hs, Action.bind_of_ok ha]
    exact (hf a).eq h
  · rw [he] at h
    have hs := hx.eq h
    rw [ha] at hs
    rw [Action.bind_of_error hs, Action.bind_of_error ha]

end Alike

namespace Execute

open Machine

variable {σ : Type} {setup : Setup} {inv : Invocation} {m : Machine σ}

theorem answer_eq {a : Address} (h : setup.committed.AgreeOn c' (s.recordRead a).accesses)
    (query : AccountQuery) : answer (setup.on c') s a query = answer setup s a query := by
  have hb : c'.balance a = setup.committed.balance a :=
    h.balance ((AccessSet.touches_record _ _ _).2 (.inl rfl))
  cases query with
  | balance => simp only [answer, Setup.on, Overlay.viewBalance, hb]
  | codeSize => simp only [answer, Setup.on, Committed.codeSize, h.code]
  | codeHash =>
    have hv : c'.isVacant a = setup.committed.isVacant a := by
      unfold Committed.isVacant Committed.codeSize
      rw [h.nonce, hb, h.code]
    have hh : c'.codeHash a = setup.committed.codeHash a := by
      rw [Committed.codeHash, h.code, Committed.codeHash]
    simp only [answer, Setup.on, hv, hh]

theorem account_eq (query : AccountQuery)
    (h : setup.committed.AgreeOn c' ((account setup query).final m).world.run.accesses) :
    account (setup.on c') query m = account setup query m := by
  obtain ⟨⟨pc, ⟨words⟩, memory, output⟩, world⟩ := m
  cases words with
  | nil => rfl
  | cons w rest =>
    have ha := answer_eq (s := world.run) (a := .ofWord w) h query
    show EStateM.Result.ok Control.next (Machine.mk
      ⟨pc, ⟨answer (setup.on c') world.run (.ofWord w) query :: rest⟩, memory, output⟩
      ⟨world.run.recordRead (.ofWord w), world.host, world.journal⟩) = _
    rw [ha]
    rfl

theorem selfBalance_eq
    (h : setup.committed.AgreeOn c' ((selfBalance setup inv).final m).world.run.accesses) :
    selfBalance (setup.on c') inv m = selfBalance setup inv m := by
  rw [selfBalance, Action.final, readRun_bind, onRun_bind, ← Action.final,
    (pushWord_keeps LocalChange.parts.data _ _).world] at h
  have hb : c'.balance inv.address = setup.committed.balance inv.address :=
    h.balance ((AccessSet.touches_record _ _ _).2 (.inl rfl))
  simp only [selfBalance, readRun_bind, Setup.on, Overlay.viewBalance, hb]

theorem extCodeCopy_eq (h : ∀ a, c'.code a = setup.committed.code a) :
    extCodeCopy (setup.on c') m = extCodeCopy setup m := by
  simp only [extCodeCopy, Setup.on, h]

theorem sload_eq
    (h : setup.committed.AgreeOn c' ((sload setup inv).final m).world.run.accesses) :
    sload (setup.on c') inv m = sload setup inv m := by
  obtain ⟨⟨pc, ⟨words⟩, memory, output⟩, world⟩ := m
  cases words with
  | nil => rfl
  | cons slot rest =>
    have hs : c'.storage inv.address slot = setup.committed.storage inv.address slot :=
      h.storage ((AccessSet.touches_record _ _ _).2 (.inl rfl)) slot
    have hv : world.run.overlay.viewStorage c' inv.address slot =
        world.run.overlay.viewStorage setup.committed inv.address slot := by
      simp only [Overlay.viewStorage, hs]
    show EStateM.Result.ok Control.next (Machine.mk
      ⟨pc, ⟨world.run.overlay.viewStorage c' inv.address slot :: rest⟩, memory, output⟩
      ⟨world.run.recordRead inv.address, world.host, world.journal⟩) = _
    rw [hv]
    rfl

theorem selfDestruct_eq
    (h : setup.committed.AgreeOn c' ((selfDestruct setup inv).final m).world.run.accesses) :
    selfDestruct (setup.on c') inv m = selfDestruct setup inv m := by
  rw [selfDestruct, selfDestruct, onStack_bind, onStack_bind]
  rw [selfDestruct, Action.final, onStack_bind] at h
  generalize Stack.pop m.frame.stack = popped at h ⊢
  rcases popped with ⟨w, stack⟩ | ⟨e, stack⟩
  · simp only [readRun_bind, onRun_bind, note_bind] at h ⊢
    -- both accounts are recorded: that of the frame as read, the beneficiary as written
    have hw : c'.balance (.ofWord w) = setup.committed.balance (.ofWord w) :=
      h.balance ((AccessSet.touches_record _ _ _).2 (.inl rfl))
    have hb : c'.balance inv.address = setup.committed.balance inv.address :=
      h.balance ((AccessSet.touches_record _ _ _).2
        (.inr ((AccessSet.touches_record _ _ _).2 (.inl rfl))))
    simp only [Setup.on, Overlay.credit, Overlay.viewBalance, hw, hb]
  · rfl

theorem alone_eq {act act' : Action (Machine σ) Control} (h : act' m = act m) :
    alone act' m = alone act m := by
  rw [alone, alone, Action.bind_apply, Action.bind_apply, h]

/-- Only the instructions that read accounts look at the committed state. -/
theorem start_alike (setup : Setup) (c' : Committed) (inv : Invocation) (i : Instruction) :
    MachineAlike setup c' (start setup inv i : Action (Machine σ) Progress)
      (start (setup.on c') inv i) := by
  refine ⟨(Speculation.grows_respected setup).start inv i, fun {m} h => ?_⟩
  cases i with
  | account query => exact alone_eq (account_eq query (final_alone m _ ▸ h))
  | selfBalance => exact alone_eq (selfBalance_eq (final_alone m _ ▸ h))
  | extCodeCopy => exact alone_eq (extCodeCopy_eq h.code)
  | sload => exact alone_eq (sload_eq (final_alone m _ ▸ h))
  | selfDestruct => exact alone_eq (selfDestruct_eq (final_alone m _ ▸ h))
  | _ => rfl

end Execute

namespace Alike

open Execute Speculation

variable {σ : Type} (setup : Setup) (c' : Committed)

section Host

variable {host host' : Host σ}
  (hh : ∀ inv request, WorldAlike setup c' (host inv request) (host' inv request))

include hh

theorem onWorld (inv : Invocation) (request : Request) :
    MachineAlike setup c' (Machine.onWorld (host inv request))
      (Machine.onWorld (host' inv request)) := by
  refine ⟨fun m => ?_, fun {m} h => ?_⟩
  · rw [Machine.final_onWorld]
    exact (hh inv request).keeps m.world
  · rw [Machine.final_onWorld] at h
    have hw := (hh inv request).eq h
    rw [Machine.onWorld_apply, Machine.onWorld_apply, hw]

theorem execute (inv : Invocation) (i : Instruction) :
    MachineAlike setup c' (SpeculativeEvm.execute setup host inv i)
      (SpeculativeEvm.execute (setup.on c') host' inv i) := by
  refine .bind (start_alike setup c' inv i) fun progress => ?_
  cases progress with
  | done control => exact .refl (.pure _)
  | ask request resolution =>
    exact .bind (onWorld setup c' hh inv request) fun _ =>
      .refl ((grows_respected setup).resolve resolution)

theorem advance (inv : Invocation) (opcode : UInt8) :
    MachineAlike setup c' (Interpreter.advance setup host inv opcode)
      (Interpreter.advance (setup.on c') host' inv opcode) := by
  rw [Interpreter.advance_eq, Interpreter.advance_eq]
  exact .bind (.refl ((grows_respected setup).note _)) fun _ =>
    .bind (execute setup c' hh inv _) fun control =>
      .refl ((grows_respected setup).moveOn inv opcode control)

theorem runFor (inv : Invocation) (budget : Nat) :
    MachineAlike setup c' (Interpreter.runFor setup host inv budget)
      (Interpreter.runFor (setup.on c') host' inv budget) := by
  have hfetch : MachineAlike setup c' (Interpreter.fetch inv : Action (Machine σ) _)
      (Interpreter.fetch inv) := .refl fun m => refl_of Grows m.world.run
  induction budget with
  | zero =>
    refine .bind hfetch fun opcode => .refl ?_
    split
    · exact .throw _
    · exact .pure _
  | succ budget ih =>
    refine .bind hfetch fun opcode => ?_
    cases opcode with
    | none => exact .refl (.pure _)
    | some opcode =>
      refine .bind (advance setup c' hh inv opcode) fun goesOn => ?_
      split
      · exact ih
      · exact .refl (.pure _)

theorem run (inv : Invocation) :
    MachineAlike setup c' (Interpreter.run setup host inv)
      (Interpreter.run (setup.on c') host' inv) := by
  have hpc : MachineAlike setup c' (Machine.setPc 0 : Action (Machine σ) Unit) (Machine.setPc 0) :=
    .refl fun m => refl_of Grows m.world.run
  have hout : MachineAlike setup c' (Machine.takeOutput : Action (Machine σ) Bytes)
      Machine.takeOutput := .refl fun m => refl_of Grows m.world.run
  exact .bind hpc fun _ => .bind (runFor setup c' hh inv _) fun _ => hout

end Host

open Nesting

/-- The frame of a request is made of code and nonces. -/
theorem child (inv : Invocation) (request : Request) :
    WorldAlike setup c' (child setup inv request) (child (setup.on c') inv request) := by
  refine ⟨(grows_respected setup).child inv request, fun {w} h => ?_⟩
  have hcode (a : Address) : (setup.on c').committed.code a = setup.committed.code a := h.code a
  have hnonce (a : Address) : (setup.on c').committed.nonce a = setup.committed.nonce a := h.nonce a
  cases request with
  | call | callCode | delegateCall | staticCall => simp only [Nesting.child, hcode]
  | create value init =>
    have ht : takeNonce (setup.on c') inv.address w = takeNonce setup inv.address w := by
      simp only [takeNonce, hnonce]
    rw [Nesting.child, Nesting.child, Action.bind_apply, Action.bind_apply, ht]
  | saltedCreate => rfl

theorem serve {descend descend' : Invocation → Action (World Nonces) Bool}
    (hd : ∀ inv, WorldAlike setup c' (descend inv) (descend' inv)) (inv : Invocation)
    (request : Request) : WorldAlike setup c' (serve setup descend inv request)
      (serve (setup.on c') descend' inv request) := by
  refine .bind (child setup c' inv request) fun next => .bind (hd next) fun completed => .refl ?_
  split
  · exact fun w => (grows_respected setup).setCreated w.run next.address
  · exact .pure _

theorem enter {host host' : Host Nonces}
    (hh : ∀ inv request, WorldAlike setup c' (host inv request) (host' inv request))
    (inv : Invocation) :
    WorldAlike setup c' (enter setup host inv) (enter (setup.on c') host' inv) := by
  refine ⟨(grows_respected setup).enter (fun inv request => (hh inv request).keeps) inv,
    fun {w} h => ?_⟩
  rw [run_final_enter] at h
  have hr := (run setup c' hh inv).eq (s := entry setup w) h
  have he : entry (setup.on c') w = entry setup w := rfl
  rw [enter_apply, enter_apply, he, hr]

theorem host (depth : Nat) (inv : Invocation) (request : Request) :
    WorldAlike setup c' (host setup depth inv request)
      (host (setup.on c') depth inv request) := by
  induction depth generalizing inv request with
  | zero => exact serve setup c' (fun _ => .refl (grows_respected setup).refuse) inv request
  | succ depth ih => exact serve setup c' (enter setup c' ih) inv request

theorem nestingExecute (inv : Invocation) :
    MachineAlike setup c' (Nesting.execute setup inv) (Nesting.execute (setup.on c') inv) := by
  have hlevel : MachineAlike setup c' (Machine.readRun (·.level) : Action (Machine Nonces) Nat)
      (Machine.readRun (·.level)) := .refl fun m => refl_of Grows m.world.run
  exact .bind hlevel fun level =>
    run setup c' (host setup c' (setup.settings.maxCallDepth - level)) inv

end Alike

/-- Where another committed state has the same code and nonces, and the same balance and storage for
every account touched by the end of a run, the run is the same there: its result or fault, and all
of the machine it leaves. -/
theorem execute_eq_of_agreeOn (setup : Setup) (c' : Committed) (inv : Invocation)
    (m : Machine Nesting.Nonces)
    (h : setup.committed.AgreeOn c'
      ((Nesting.execute setup inv).final m).world.run.accesses) :
    Nesting.execute (setup.on c') inv m = Nesting.execute setup inv m :=
  (Alike.nestingExecute setup c' inv).eq h

/-- A frame of account 0 that reads its own balance does not depend on the balance of account 1. -/
theorem execute_eq_of_otherBalance :
    Nesting.execute (Setup.on ⟨{}, {}, Ledger.empty.committed⟩
        { Ledger.empty.committed with balance := fun a => if a = ⟨1⟩ then 7 else 0 })
        ⟨⟨0⟩, .zero, 0, .ofBytes #[0x47], #[]⟩ ⟨.fresh 64, Nesting.freshWorld {}⟩ =
      Nesting.execute ⟨{}, {}, Ledger.empty.committed⟩
        ⟨⟨0⟩, .zero, 0, .ofBytes #[0x47], #[]⟩ ⟨.fresh 64, Nesting.freshWorld {}⟩ := by
  refine execute_eq_of_agreeOn _ _ _ _
    ⟨fun _ => rfl, fun _ => rfl, fun {a} ha => ?_, fun _ _ => rfl⟩
  have h0 : ⟨0⟩ = a := by
    rcases (AccessSet.touches_record .empty ⟨⟨0⟩, .read⟩ a).1 ha with h | h
    · exact h
    · rw [AccessSet.Touches, AccessSet.kindOf_empty] at h
      cases h
  subst h0
  decide

end SpeculativeEvm
