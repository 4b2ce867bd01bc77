import SpeculativeEvm.Proofs.CreationNonces
import SpeculativeEvm.Proofs.Dependence
import SpeculativeEvm.Proofs.Nesting.Along

/-! What a run asks the committed state, and which of it is recorded. Instructions that ask about an
account record it. To make a frame for a request also means to look up code, or the nonce of the
sender, and that is not recorded: such an account is on record only if an instruction touches it. -/

namespace SpeculativeEvm

open Nesting Execute Machine

inductive Query
  | balance (a : Address)
  | nonce (a : Address)
  | code (a : Address)
  | storage (a : Address) (slot : Word)
  deriving DecidableEq

namespace Query

def account : Query → Address
  | balance a | nonce a | code a | storage a _ => a

def SameAnswer (c c' : Committed) : Query → Prop
  | balance a => c'.balance a = c.balance a
  | nonce a => c'.nonce a = c.nonce a
  | code a => c'.code a = c.code a
  | storage a slot => c'.storage a slot = c.storage a slot

end Query

namespace Overlay

/-- What the view of a balance asks: nothing if the overlay has the balance. -/
def asksBalance (o : Overlay) (a : Address) : List Query :=
  if (o.balance? a).isSome then [] else [.balance a]

def asksStorage (o : Overlay) (a : Address) (slot : Word) : List Query :=
  if (o.storage? a slot).isSome then [] else [.storage a slot]

variable {o : Overlay} {c c' : Committed} {a : Address} {q : Query}

theorem eq_of_asksBalance (h : q ∈ o.asksBalance a) : q = .balance a := by
  unfold asksBalance at h
  split at h
  · cases h
  · exact List.mem_singleton.1 h

theorem viewBalance_eq (h : ∀ q ∈ o.asksBalance a, q.SameAnswer c c') :
    o.viewBalance c' a = o.viewBalance c a := by
  unfold asksBalance at h
  unfold viewBalance
  rcases hb : o.balance? a with - | w
  · rw [hb] at h
    exact h (.balance a) (by simp)
  · rfl

theorem eq_of_asksStorage {slot : Word} (h : q ∈ o.asksStorage a slot) :
    q = .storage a slot := by
  unfold asksStorage at h
  split at h
  · cases h
  · exact List.mem_singleton.1 h

theorem viewStorage_eq {slot : Word} (h : ∀ q ∈ o.asksStorage a slot, q.SameAnswer c c') :
    o.viewStorage c' a slot = o.viewStorage c a slot := by
  unfold asksStorage at h
  unfold viewStorage
  rcases hs : o.storage? a slot with - | w
  · rw [hs] at h
    exact h (.storage a slot) (by simp)
  · rfl

end Overlay

def AccountQuery.consults (o : Overlay) (a : Address) : AccountQuery → List Query
  | balance => o.asksBalance a
  | codeSize => [.code a]
  | codeHash => [.nonce a, .balance a, .code a]

/-- What an instruction of account `self` that finds these words on its stack asks by itself. -/
def Instruction.consults (o : Overlay) (self : Address) : Instruction → List Word → List Query
  | account query, w :: _ => query.consults o (.ofWord w)
  | selfBalance, _ => o.asksBalance self
  | extCodeCopy, source :: offset :: _ :: size :: _ =>
    match spanOf offset size with
    | .ok _ => [.code (.ofWord source)]
    | .error _ => []
  | sload, slot :: _ => o.asksStorage self slot
  | selfDestruct, w :: _ => o.asksBalance self ++ o.asksBalance (.ofWord w)
  | _, _ => []

/-- What it takes to make the frame that account `self` requests. -/
def Request.fetches (self : Address) (nonces : Nonces) : Request → List Query
  | call target _ _ | callCode target _ _ => [.code target]
  | delegateCall target _ | staticCall target _ => [.code target]
  | create _ _ => if nonces[self]?.isSome then [] else [.nonce self]
  | saltedCreate _ _ _ => []

section Footprint

variable {σ : Type} {setup : Setup} {c' : Committed} {inv : Invocation} {i : Instruction}
  {m : Machine σ} {q : Query}

/-! An instruction learns nothing of the committed state but the answers to its questions. -/

namespace Execute

theorem answer_on {s : Speculation} {a : Address} {query : AccountQuery}
    (h : ∀ q ∈ query.consults s.overlay a, q.SameAnswer setup.committed c') :
    answer (setup.on c') s a query = answer setup s a query := by
  cases query with
  | balance => exact Overlay.viewBalance_eq h
  | codeSize =>
    have hc : c'.code a = setup.committed.code a := h (.code a) (by simp [AccountQuery.consults])
    simp only [answer, Setup.on, Committed.codeSize, hc]
  | codeHash =>
    have hn : c'.nonce a = setup.committed.nonce a :=
      h (.nonce a) (by simp [AccountQuery.consults])
    have hb : c'.balance a = setup.committed.balance a :=
      h (.balance a) (by simp [AccountQuery.consults])
    have hc : c'.code a = setup.committed.code a := h (.code a) (by simp [AccountQuery.consults])
    have hvacant : c'.isVacant a = setup.committed.isVacant a := by
      unfold Committed.isVacant Committed.codeSize
      rw [hn, hb, hc]
    have hhash : c'.codeHash a = setup.committed.codeHash a := by
      rw [Committed.codeHash, hc, Committed.codeHash]
    simp only [answer, Setup.on, hvacant, hhash]

theorem account_on {query : AccountQuery}
    (h : ∀ q ∈ (Instruction.account query).consults m.world.run.overlay inv.address
      m.frame.stack.words, q.SameAnswer setup.committed c') :
    account (setup.on c') query m = account setup query m := by
  obtain ⟨⟨pc, ⟨words⟩, memory, output⟩, world⟩ := m
  cases words with
  | nil => rfl
  | cons w rest =>
    have ha := answer_on (s := world.run) (a := .ofWord w) h
    show EStateM.Result.ok Control.next (Machine.mk
      ⟨pc, ⟨answer (setup.on c') world.run (.ofWord w) query :: rest⟩, memory, output⟩
      ⟨world.run.recordRead (.ofWord w), world.host, world.journal⟩) = _
    rw [ha]
    rfl

theorem extCodeCopy_on (self : Address)
    (h : ∀ q ∈ Instruction.extCodeCopy.consults m.world.run.overlay self m.frame.stack.words,
      q.SameAnswer setup.committed c') : extCodeCopy (setup.on c') m = extCodeCopy setup m := by
  obtain ⟨⟨pc, ⟨words⟩, memory, output⟩, world⟩ := m
  rw [extCodeCopy, extCodeCopy, onStack_bind, onStack_bind]
  rcases words with - | ⟨source, - | ⟨offset, - | ⟨start, - | ⟨size, rest⟩⟩⟩⟩
  · rfl
  · rfl
  · rfl
  · rfl
  · have hpop : Stack.popN 4 ⟨source :: offset :: start :: size :: rest⟩ =
        .ok ⟨#[source, offset, start, size], rfl⟩ ⟨rest⟩ := rfl
    simp only [hpop, check_bind]
    rcases hs : spanOf offset size with e | target
    · rfl
    · have hc : c'.code (.ofWord source) = setup.committed.code (.ofWord source) :=
        h (.code (.ofWord source)) (by simp [Instruction.consults, hs])
      simp only [Setup.on, hc]

theorem sload_on (h : ∀ q ∈ Instruction.sload.consults m.world.run.overlay inv.address
      m.frame.stack.words, q.SameAnswer setup.committed c') :
    sload (setup.on c') inv m = sload setup inv m := by
  obtain ⟨⟨pc, ⟨words⟩, memory, output⟩, world⟩ := m
  cases words with
  | nil => rfl
  | cons slot rest =>
    have hs : world.run.overlay.viewStorage c' inv.address slot = _ := Overlay.viewStorage_eq h
    show EStateM.Result.ok Control.next (Machine.mk
      ⟨pc, ⟨world.run.overlay.viewStorage c' inv.address slot :: rest⟩, memory, output⟩
      ⟨world.run.recordRead inv.address, world.host, world.journal⟩) = _
    rw [hs]
    rfl

theorem selfDestruct_on (h : ∀ q ∈ Instruction.selfDestruct.consults m.world.run.overlay
      inv.address m.frame.stack.words, q.SameAnswer setup.committed c') :
    selfDestruct (setup.on c') inv m = selfDestruct setup inv m := by
  obtain ⟨⟨pc, ⟨words⟩, memory, output⟩, world⟩ := m
  rw [selfDestruct, selfDestruct, onStack_bind, onStack_bind]
  cases words with
  | nil => simp only [Stack.pop]
  | cons w rest =>
    have hself : world.run.overlay.viewBalance c' inv.address =
        world.run.overlay.viewBalance setup.committed inv.address :=
      Overlay.viewBalance_eq fun q hq => h q (List.mem_append_left _ hq)
    have hheir : world.run.overlay.viewBalance c' (.ofWord w) =
        world.run.overlay.viewBalance setup.committed (.ofWord w) :=
      Overlay.viewBalance_eq fun q hq => h q (List.mem_append_right _ hq)
    have hpop : Stack.pop ⟨w :: rest⟩ = .ok w ⟨rest⟩ := rfl
    simp only [hpop, readRun_bind, onRun_bind, note_bind]
    simp only [Setup.on, Overlay.credit, hself, hheir]

theorem start_on
    (h : ∀ q ∈ i.consults m.world.run.overlay inv.address m.frame.stack.words,
      q.SameAnswer setup.committed c') : start (setup.on c') inv i m = start setup inv i m := by
  cases i with
  | account query => exact alone_eq (account_on h)
  | selfBalance =>
    have hb := Overlay.viewBalance_eq h
    refine alone_eq ?_
    simp only [selfBalance, readRun_bind, Setup.on, hb]
  | extCodeCopy => exact alone_eq (extCodeCopy_on inv.address h)
  | sload => exact alone_eq (sload_on h)
  | selfDestruct => exact alone_eq (selfDestruct_on h)
  | _ => rfl

end Execute

theorem Nesting.child_on {request : Request} {w : World Nonces}
    (h : ∀ q ∈ request.fetches inv.address w.host, q.SameAnswer setup.committed c') :
    child (setup.on c') inv request w = child setup inv request w := by
  cases request with
  | call target value input | callCode target value input =>
    have hc : c'.code target = setup.committed.code target := h _ List.mem_cons_self
    simp only [child, Setup.on, hc]
  | delegateCall target input | staticCall target input =>
    have hc : c'.code target = setup.committed.code target := h _ List.mem_cons_self
    simp only [child, Setup.on, hc]
  | create value init =>
    have hn : nextNonce (setup.on c') w.host inv.address = nextNonce setup w.host inv.address := by
      unfold Request.fetches at h
      unfold nextNonce
      rcases hi : w.host[inv.address]? with - | n
      · rw [hi] at h
        exact h (.nonce inv.address) (by simp)
      · rfl
    rw [child, child, Action.bind_apply, Action.bind_apply, takeNonce_apply, takeNonce_apply, hn]
  | saltedCreate value salt init => rfl

/-! An instruction that asks about an account records it. -/

theorem AccountQuery.account_of_consults {o : Overlay} {a : Address} {query : AccountQuery}
    (h : q ∈ query.consults o a) : q.account = a := by
  cases query with
  | balance => rw [Overlay.eq_of_asksBalance h]; rfl
  | codeSize | codeHash =>
    simp only [consults, List.mem_cons, List.not_mem_nil, or_false] at h
    aesop

theorem Speculation.touches_recordRead (s : Speculation) (a : Address) :
    (s.recordRead a).accesses.Touches a :=
  (AccessSet.touches_record _ _ _).2 (.inl rfl)

theorem Speculation.touches_bequeath (s : Speculation) (c : Committed) (a beneficiary : Address) :
    (s.bequeath c a beneficiary).accesses.Touches a ∧
      (s.bequeath c a beneficiary).accesses.Touches beneficiary :=
  ⟨(AccessSet.touches_record _ _ _).2 (.inr (s.touches_recordRead a)),
    (AccessSet.touches_record _ _ _).2 (.inl rfl)⟩

namespace Execute

theorem touches_selfBalance :
    ((selfBalance setup inv).final m).world.run.accesses.Touches inv.address := by
  rw [selfBalance, Action.final, readRun_bind, onRun_bind, ← Action.final,
    (pushWord_keeps LocalChange.parts.data _ _).world]
  exact Speculation.touches_recordRead _ _

theorem run_selfDestruct {w : Word} {rest : List Word}
    (hw : m.frame.stack.words = w :: rest) :
    ((selfDestruct setup inv).final m).world.run =
      m.world.run.bequeath setup.committed inv.address (.ofWord w) := by
  obtain ⟨⟨pc, ⟨words⟩, memory, output⟩, world⟩ := m
  obtain rfl : words = w :: rest := hw
  have hpop : Stack.pop ⟨w :: rest⟩ = .ok w ⟨rest⟩ := rfl
  rw [selfDestruct, Action.final, onStack_bind]
  simp only [hpop, readRun_bind, onRun_bind, note_bind]
  rfl

/-- A copy of code records the account when it is done. -/
theorem touches_extCodeCopy
    (hq : q ∈ Instruction.extCodeCopy.consults m.world.run.overlay inv.address
      m.frame.stack.words) (hc : ∀ e t, extCodeCopy setup m ≠ .error e t) :
    ((extCodeCopy setup).final m).world.run.accesses.Touches q.account := by
  obtain ⟨⟨pc, ⟨words⟩, memory, output⟩, world⟩ := m
  rw [extCodeCopy, Action.final, onStack_bind]
  simp only [extCodeCopy, onStack_bind] at hc
  rcases words with - | ⟨source, - | ⟨offset, - | ⟨start, - | ⟨size, rest⟩⟩⟩⟩
  · cases hq
  · cases hq
  · cases hq
  · cases hq
  · have hpop : Stack.popN 4 ⟨source :: offset :: start :: size :: rest⟩ =
        .ok ⟨#[source, offset, start, size], rfl⟩ ⟨rest⟩ := rfl
    simp only [Instruction.consults] at hq
    simp only [hpop, check_bind, copyToMemory, onMemory_bind] at hc ⊢
    rcases hs : spanOf offset size with e | target
    · rw [hs] at hq
      cases hq
    · simp only [hs] at hq hc ⊢
      obtain rfl := List.mem_singleton.1 hq
      generalize Memory.copyFrom _ _ _ _ memory = r at hc ⊢
      rcases r with ⟨-, memory⟩ | ⟨e, memory⟩
      · exact world.run.touches_recordRead _
      · exact absurd rfl (hc e _)

/-- All other instructions record before they can fault. -/
theorem touches_of_consults
    (hq : q ∈ i.consults m.world.run.overlay inv.address m.frame.stack.words)
    (hc : i = .extCodeCopy → ∀ e t, start setup inv i m ≠ .error e t) :
    ((start setup inv i).final m).world.run.accesses.Touches q.account := by
  cases i with
  | account query =>
    obtain ⟨⟨pc, ⟨words⟩, memory, output⟩, world⟩ := m
    cases words with
    | nil => cases hq
    | cons w rest =>
      rw [AccountQuery.account_of_consults hq]
      exact world.run.touches_recordRead (.ofWord w)
  | selfBalance =>
    rw [Overlay.eq_of_asksBalance hq]
    exact final_alone m _ ▸ touches_selfBalance
  | extCodeCopy =>
    refine final_alone m _ ▸ touches_extCodeCopy hq fun e t h => ?_
    exact hc rfl e t (Action.bind_of_error h)
  | sload =>
    obtain ⟨⟨pc, ⟨words⟩, memory, output⟩, world⟩ := m
    cases words with
    | nil => cases hq
    | cons slot rest =>
      rw [Overlay.eq_of_asksStorage hq]
      exact world.run.touches_recordRead inv.address
  | selfDestruct =>
    rcases hw : m.frame.stack.words with - | ⟨w, rest⟩
    · rw [hw] at hq
      cases hq
    · have ht := m.world.run.touches_bequeath setup.committed inv.address (.ofWord w)
      rw [hw] at hq
      refine final_alone m _ ▸ run_selfDestruct hw ▸ ?_
      rcases List.mem_append.1 hq with hq | hq
      · rw [Overlay.eq_of_asksBalance hq]
        exact ht.1
      · rw [Overlay.eq_of_asksBalance hq]
        exact ht.2
  | _ => cases hq

end Execute

end Footprint

namespace Point

/-- What the instruction at the point asks the committed state by itself. -/
def consulted (p : Point) : List Query :=
  match p.opcode? with
  | some opcode => (Instruction.decode opcode).consults p.run.overlay p.inv.address
      p.machine.frame.stack.words
  | none => []

/-- What is asked to make the frame that the instruction at the point requests. -/
def fetched (setup : Setup) (p : Point) : List Query :=
  match p.asked? setup with
  | some (request, w) => request.fetches p.inv.address w.host
  | none => []

/-- All that the run asks the committed state at the point. -/
def queries (setup : Setup) (p : Point) : List Query := p.consulted ++ p.fetched setup

variable {setup : Setup} {c' : Committed} {p q : Point} {query : Query}

/-- The instruction does the same, and the same frame starts, on any committed state that gives the
same answers. -/
theorem on_of_queries (h : ∀ query ∈ p.queries setup, query.SameAnswer setup.committed c') :
    p.begun (setup.on c') = p.begun setup ∧ p.entered? (setup.on c') = p.entered? setup := by
  rcases hop : p.opcode? with - | opcode
  · simp only [begun, entered?, hop, Option.bind_none, and_self]
  · have hs : Execute.start (setup.on c') p.inv (Instruction.decode opcode) (p.noted opcode) =
        Execute.start setup p.inv (Instruction.decode opcode) (p.noted opcode) := by
      refine start_on fun query hq => h query (List.mem_append_left _ ?_)
      rw [noted_run, noted_frame] at hq
      simp only [consulted, hop]
      exact hq
    simp only [begun, entered?, hop, Option.bind_some, hs]
    rcases hask : Execute.start setup p.inv (Instruction.decode opcode) (p.noted opcode) with
      ⟨control | ⟨request, resolution⟩, m⟩ | ⟨e, m⟩
    · exact ⟨rfl, rfl⟩
    · have hc : child (setup.on c') p.inv request m.world = child setup p.inv request m.world := by
        refine child_on fun query hq => h query (List.mem_append_right _ ?_)
        simp only [fetched, asked?, hop, Option.bind_some, hask]
        exact hq
      simp only [Action.final, hc, true_and]
      rfl
    · exact ⟨rfl, rfl⟩

/-- The record of accounts only grows along a run. -/
theorem grows_along (setup : Setup) :
    Along setup (fun _ => True) (World.Related Speculation.Grows) where
  toIsPreorder := inferInstance
  same h := .of_accesses_eq h.accesses
  step _ _ := trivial
  begun {p opcode} _ hop := by
    have h := (Speculation.grows_respected setup).start p.inv (Instruction.decode opcode)
      (p.noted opcode)
    rw [World.Related, begun_run hop]
    rwa [Machine.Related, noted_run] at h

/-- The account is on record when the instruction has come as far as it does by itself. -/
theorem touches_begun (hq : query ∈ p.consulted)
    (hc : p.instruction? = some .extCodeCopy → ∃ opcode goesOn m, p.opcode? = some opcode ∧
      Interpreter.advance setup (host setup p.depth) p.inv opcode p.machine = .ok goesOn m) :
    (p.begun setup).run.accesses.Touches query.account := by
  rcases hop : p.opcode? with - | opcode
  · simp only [consulted, hop] at hq
    cases hq
  · simp only [consulted, hop] at hq
    rw [begun_run hop]
    refine touches_of_consults (by rwa [noted_run, noted_frame]) fun hi e t hs => ?_
    obtain ⟨opcode', goesOn, m, hop', ha⟩ := hc (by rw [instruction?, hop, Option.map_some, hi])
    cases hop.symm.trans hop'
    have hx : execute setup (host setup p.depth) p.inv (Instruction.decode opcode)
        (p.noted opcode) = .error e t := Action.bind_of_error hs
    cases ha.symm.trans (advance_of_execute_error hx)

/-- To ask for a frame, and to make it, adds no access. -/
theorem accesses_of_asked (h : (p.asked? setup).isSome) :
    (p.begun setup).run.accesses = p.run.accesses := by
  obtain ⟨⟨request, w⟩, ha⟩ := Option.isSome_iff_exists.1 h
  obtain ⟨opcode, resolution, m, hop, hs, -⟩ := asked?_eq_some ha
  have hr := (start_ask setup p.inv hs).2.run
  rw [begun_run hop, Action.final_of_ok hs, hr, noted_run]
  rfl

/-- What some instruction of a course has, some point of the run has. -/
theorem exists_reached (setup : Setup) (p : Point) (f : Point → Bool)
    (h : ((p.course setup).filterMap Moment.started?).any f = true) :
    ∃ q, Reaches setup p q ∧ f q = true := by
  obtain ⟨q, hq, hf⟩ := List.any_eq_true.1 h
  obtain ⟨x, hx, hstarted⟩ := List.mem_filterMap.1 hq
  obtain rfl := Moment.eq_starts_of_started? hstarted
  exact ⟨q, (starts_mem_course_iff.1 hx).1, hf⟩

end Point

open Point

/-- At each point of a run, at any depth, all that it learns of the committed state are the answers
to `queries`. Of these, the account that the instruction by itself asks about is on record when the
run ends, however it ends; a copy of code must be done for that. What is looked up to make a frame,
the code of the account called or the nonce of the sender, adds nothing to the record. -/
theorem consulted_accounts_recorded (setup : Setup) (inv : Invocation) (m : Machine Nonces)
    (p : Point) (hp : Reaches setup (start setup inv m) p) :
    (∀ c', (∀ query ∈ p.queries setup, query.SameAnswer setup.committed c') →
      p.begun (setup.on c') = p.begun setup ∧ p.entered? (setup.on c') = p.entered? setup) ∧
    (∀ query ∈ p.consulted,
      (p.instruction? = some .extCodeCopy → ∃ opcode goesOn t, p.opcode? = some opcode ∧
        Interpreter.advance setup (host setup p.depth) p.inv opcode p.machine = .ok goesOn t) →
      ((Nesting.execute setup inv).final m).world.run.accesses.Touches query.account) ∧
    ((p.asked? setup).isSome → (p.begun setup).run.accesses = p.run.accesses ∧
      ∀ q, p.entered? setup = some q → q.run.accesses = p.run.accesses) := by
  refine ⟨fun c' h => on_of_queries h, fun query hq hc => ?_, fun ha => ?_⟩
  · rcases hop : p.opcode? with - | opcode
    · simp only [consulted, hop] at hq
      cases hq
    · have hgrows := (grows_along setup).begun_left trivial hp hop
      rw [run_final_execute]
      exact hgrows query.account (touches_begun hq hc)
  · have hbegun := accesses_of_asked ha
    exact ⟨hbegun, fun q hq => (begun_of_entered hq).accesses.trans hbegun⟩

def lookingUp : Invocation :=
  ⟨⟨7⟩, .zero, 0, .ofBytes #[0x5f, 0x5f, 0x5f, 0x5f, 0x60, 17, 0x5f, 0xfa, 0x5f, 0x5f, 0x5f, 0xf0],
    #[]⟩

def faultingLoad : Setup :=
  ⟨{}, {}, (Ledger.empty.setCode ⟨17⟩ #[0x5f, 0x54, 0x0c]).committed⟩

/-- The nested frame has asked for the word, and account 17 is on record. -/
theorem faultingLoad_recorded :
    ((Nesting.execute faultingLoad lookingUp).final
      ⟨.fresh 64, freshWorld {}⟩).world.run.accesses.Touches ⟨17⟩ := by
  obtain ⟨p, hp, hload⟩ := exists_reached faultingLoad
    (start faultingLoad lookingUp ⟨.fresh 64, freshWorld {}⟩)
    (fun p => p.instruction? = some .sload ∧ .storage ⟨17⟩ 0 ∈ p.consulted) (by decide +kernel)
  obtain ⟨hi, hq⟩ := of_decide_eq_true hload
  obtain ⟨-, hrecorded, -⟩ :=
    consulted_accounts_recorded faultingLoad lookingUp ⟨.fresh 64, freshWorld {}⟩ p hp
  refine hrecorded (.storage ⟨17⟩ 0) hq fun hcopy => ?_
  cases hi.symm.trans hcopy

def handingZero : Setup :=
  ⟨{}, {}, (Ledger.empty.setCode ⟨17⟩ #[0x60, 1, 0x5f, 0xf3]).committed⟩

/-- The run looks up the code of account 17 and the nonce of account 7, ends well and has neither
account on record. -/
theorem lookups_unrecorded :
    let m : Machine Nonces := ⟨.fresh 64, freshWorld {}⟩
    ∃ output t, Nesting.execute handingZero lookingUp m = .ok output t ∧
      (∃ p, Reaches handingZero (start handingZero lookingUp m) p ∧
        .code ⟨17⟩ ∈ p.queries handingZero ∧ ¬ t.world.run.accesses.Touches ⟨17⟩) ∧
      ∃ p, Reaches handingZero (start handingZero lookingUp m) p ∧
        .nonce ⟨7⟩ ∈ p.queries handingZero ∧ ¬ t.world.run.accesses.Touches ⟨7⟩ := by
  intro m
  obtain ⟨p, hp, hcode⟩ := exists_reached handingZero (start handingZero lookingUp m)
    (fun p => .code ⟨17⟩ ∈ p.queries handingZero) (by decide +kernel)
  obtain ⟨p', hp', hnonce⟩ := exists_reached handingZero (start handingZero lookingUp m)
    (fun p => .nonce ⟨7⟩ ∈ p.queries handingZero) (by decide +kernel)
  have hok : (EStateM.run' (Nesting.execute handingZero lookingUp) m).isSome = true := by
    decide +kernel
  have hkinds : ∀ a ∈ [Address.mk 17, Address.mk 7],
      ((Nesting.execute handingZero lookingUp).final m).world.run.accesses.kindOf a = none := by
    decide +kernel
  rcases hx : Nesting.execute handingZero lookingUp m with ⟨output, t⟩ | ⟨e, t⟩
  · rw [Action.final_of_ok hx] at hkinds
    have htouch {a : Address} (ha : a ∈ [Address.mk 17, Address.mk 7]) :
        ¬ t.world.run.accesses.Touches a := by
      rw [AccessSet.Touches, hkinds a ha]
      exact Bool.false_ne_true
    exact ⟨output, t, rfl, ⟨p, hp, of_decide_eq_true hcode, htouch (by simp)⟩, p', hp',
      of_decide_eq_true hnonce, htouch (by simp)⟩
  · delta EStateM.run' EStateM.run at hok
    rw [hx] at hok
    cases hok

end SpeculativeEvm
