import SpeculativeEvm.Proofs.AccessTrace
import SpeculativeEvm.Proofs.Bytes
import SpeculativeEvm.Proofs.Code.Boundary
import SpeculativeEvm.Proofs.Nesting.Along
import SpeculativeEvm.Proofs.WriteSet

/-! Whose account the frames of a run act on. A frame that another one asks for by `CALLCODE` or
`DELEGATECALL` runs borrowed code on the account of the frame that asks. Every other way to a frame
of another account, or to the balance of another account, needs an instruction whose byte stands in
the code, so a run whose code has none of these bytes stays with one account at every depth. -/

namespace SpeculativeEvm

open Nesting Execute Machine

variable {σ : Type}

def Request.instruction : Request → Instruction
  | call .. => .call .call
  | callCode .. => .call .callCode
  | delegateCall .. => .call .delegateCall
  | staticCall .. => .call .staticCall
  | create .. => .create
  | saltedCreate .. => .saltedCreate

namespace Instruction

/-- The code byte of an instruction that asks the host or that gives a balance away. -/
def systemByte? : Instruction → Option UInt8
  | call .call => some 0xf1
  | call .callCode => some 0xf2
  | call .delegateCall => some 0xf4
  | call .staticCall => some 0xfa
  | create => some 0xf0
  | saltedCreate => some 0xf5
  | selfDestruct => some 0xff
  | _ => none

theorem eq_of_systemByte? {b c : UInt8} (h : (decode b).systemByte? = some c) : b = c := by
  have hb : (decode b).systemByte? = none ∨ (decode b).systemByte? = some b :=
    Bytes.of_fin (P := fun b => (decode b).systemByte? = none ∨ (decode b).systemByte? = some b)
      (by decide +kernel) b
  rw [h] at hb
  rcases hb with hb | hb
  · cases hb
  · exact (Option.some.inj hb).symm

end Instruction

theorem Machine.Requested.of_ask {P : Request → Resolution → Prop} {n : Nat} {m m' : Machine σ}
    {r : EStateM.Result Fault (Machine σ) Progress} {request : Request} {resolution : Resolution}
    (h : Requested P n m r) (he : r = .ok (.ask request resolution) m') : P request resolution := by
  subst he
  cases h with
  | asked hp => exact hp

/-- Each kind of request has one instruction that makes it. -/
theorem Execute.instruction_of_ask {setup : Setup} {inv : Invocation} {i : Instruction}
    {m m' : Machine σ} {request : Request} {resolution : Resolution}
    (h : start setup inv i m = .ok (.ask request resolution) m') : request.instruction = i := by
  cases i with
  | call kind =>
    refine Requested.of_ask (P := fun request _ => request.instruction = .call kind)
      (n := kind.arity) (m := m) ?_ h
    cases kind with
    | call | callCode =>
      exact .popN 7 _ m fun ⟨⟨[_, _, _, _, _, _, _]⟩, _⟩ m' =>
        askCall_requested _ _ _ _ (fun _ _ => rfl) m'
    | delegateCall | staticCall =>
      exact .popN 6 _ m fun ⟨⟨[_, _, _, _, _, _]⟩, _⟩ m' =>
        askCall_requested _ _ _ _ (fun _ _ => rfl) m'
  | create =>
    exact Requested.of_ask (P := fun request _ => request.instruction = .create)
      (.popN 3 _ m fun ⟨⟨[_, _, _]⟩, _⟩ m' => askCreate_requested _ _ (fun _ => rfl) m') h
  | saltedCreate =>
    exact Requested.of_ask (P := fun request _ => request.instruction = .saltedCreate)
      (.popN 4 _ m fun ⟨⟨[_, _, _, _]⟩, _⟩ m' => askCreate_requested _ _ (fun _ => rfl) m') h
  | stop | jumpDest | undefined => cases h
  | _ => exact absurd h alone_ne_ask

structure Setup.Lacks (setup : Setup) (bytes : List UInt8) (code : Bytes) : Prop where
  code : ∀ b ∈ bytes, b ∉ code
  committed : ∀ a, ∀ b ∈ bytes, b ∉ setup.committed.code a

/-- The bytes of `CALL`, `STATICCALL`, `CREATE`, `CREATE2` and `SELFDESTRUCT`, with which a frame
reaches other accounts than its own. -/
def leavingBytes : List UInt8 := [0xf1, 0xfa, 0xf0, 0xf5, 0xff]

namespace Setup.Lacks

variable {setup : Setup} {bytes : List UInt8} {code : Bytes}

/-- Borrowed code lacks the bytes as well. -/
theorem borrowed (h : setup.Lacks bytes code) (target : Address) :
    setup.Lacks bytes (setup.committed.code target) :=
  ⟨h.committed target, h.committed⟩

theorem systemByte?_notMem (h : setup.Lacks bytes code) {opcode : UInt8} (hop : opcode ∈ code) :
    ∀ b ∈ bytes, (Instruction.decode opcode).systemByte? ≠ some b := by
  intro b hb he
  obtain rfl := Instruction.eq_of_systemByte? he
  exact h.code opcode hb hop

end Setup.Lacks

namespace Speculation

/-- Whatever the second state has written beyond the first is storage of the account. -/
structure Confined (a : Address) (s t : Speculation) : Prop where
  balances : t.overlay.balances = s.overlay.balances
  storage (b : Address) (slot : Word) :
    b ≠ a → t.overlay.storage? b slot = s.overlay.storage? b slot
  log : ∃ added, t.log = s.log ++ added ∧ ∀ b, ⟨b, .write⟩ ∈ added → b = a
  kinds (b : Address) :
    b ≠ a → t.accesses.kindOf b = some .write → s.accesses.kindOf b = some .write

namespace Confined

variable {a : Address} {s t : Speculation}

theorem of_same (ho : t.overlay = s.overlay) (ha : t.accesses = s.accesses) : Confined a s t where
  balances := by rw [ho]
  storage b slot _ := by rw [ho]
  log := ⟨[], by rw [Speculation.log, ha, List.append_nil, Speculation.log], nofun⟩
  kinds b _ h := by rwa [ha] at h

instance : IsPreorder Speculation (Confined a) where
  refl _ := of_same rfl rfl
  trans s t u h h' := by
    obtain ⟨added, hlog, hadded⟩ := h.log
    obtain ⟨added', hlog', hadded'⟩ := h'.log
    exact {
      balances := h'.balances.trans h.balances
      storage := fun b slot hb => (h'.storage b slot hb).trans (h.storage b slot hb)
      log := ⟨added ++ added', by rw [hlog', hlog, List.append_assoc], fun b hb =>
        (List.mem_append.1 hb).elim (hadded b) (hadded' b)⟩
      kinds := fun b hb hk => h.kinds b hb (h'.kinds b hb hk) }

theorem recordRead (s : Speculation) (a b : Address) : Confined a s (s.recordRead b) where
  balances := rfl
  storage _ _ _ := rfl
  log := ⟨[⟨b, .read⟩], s.log_recordRead b, by simp⟩
  kinds c _ h := (s.accesses.kindOf_recordRead_eq_write b c).1 h

theorem store (s : Speculation) (a : Address) (slot value : Word) :
    Confined a s (s.store a slot value) where
  balances := rfl
  storage b other hb := by
    refine (s.overlay.storage?_setStorage a b slot other value).trans (if_neg ?_)
    exact fun h => hb h.1.symm
  log := ⟨[⟨a, .write⟩], log_recordWrite _ a, by simp⟩
  kinds b hb h := by
    rcases (s.accesses.kindOf_recordWrite_eq_write a b).1 h with rfl | h
    · exact absurd rfl hb
    · exact h

/-- Only a self-destruct changes anything but the frame's own storage. -/
theorem of_effect {setup : Setup} {inv : Invocation} {i : Instruction} (h : Effect setup inv s i t)
    (hi : i ≠ .selfDestruct) : Confined inv.address s t := by
  cases h with
  | none | clearBelow => exact of_same rfl rfl
  | invalid => exact of_same rfl rfl
  | account | extCodeCopy | selfBalance | sload => exact recordRead s _ _
  | sstore slot value => exact store s _ slot value
  | selfDestruct => exact absurd rfl hi
  | handBack _ output =>
    obtain ⟨returned, he⟩ := s.handBack_eq output
    rw [he]
    exact of_same rfl rfl

end Confined

end Speculation

namespace Point

variable {setup : Setup} {inv : Invocation} {p q : Point} {opcode : UInt8}

theorem opcode_mem (h : p.opcode? = some opcode) : opcode ∈ p.inv.code.bytes :=
  Array.mem_of_getElem? (opcode?_eq_some_iff.1 h).2

/-- Without the leaving bytes, the frames asked for borrow code. With `DELEGATECALL` they also have
the caller and the value of the frame that asks. -/
theorem inv_of_entered (hl : setup.Lacks leavingBytes p.inv.code.bytes)
    (h : p.entered? setup = some q) : ∃ target,
      q.inv.code.bytes = setup.committed.code target ∧ q.inv.address = p.inv.address ∧
        (0xf2 ∉ p.inv.code.bytes → q.inv.caller = p.inv.caller ∧ q.inv.value = p.inv.value) := by
  obtain ⟨opcode, hop, request, resolution, m, depth, next, w, hs, -, hc, rfl⟩ :=
    entered?_eq_some h
  have hi := instruction_of_ask hs
  have hno := hl.systemByte?_notMem (opcode_mem hop)
  rw [← hi] at hno
  cases request with
  | callCode target value input =>
    cases hc
    refine ⟨target, rfl, rfl, fun hf2 => absurd (opcode_mem hop) ?_⟩
    obtain rfl : opcode = 0xf2 := Instruction.eq_of_systemByte? (hi ▸ rfl)
    exact hf2
  | delegateCall target input =>
    cases hc
    exact ⟨target, rfl, rfl, fun _ => ⟨rfl, rfl⟩⟩
  | call | staticCall | create | saltedCreate => exact absurd rfl (hno _ (by decide))

structure Inherits (setup : Setup) (inv : Invocation) (p : Point) : Prop where
  lacks : setup.Lacks leavingBytes p.inv.code.bytes
  address : p.inv.address = inv.address

theorem inv_of_next (h : p.next? setup = some q) : q.inv = p.inv := by
  obtain ⟨-, -, m, -, rfl⟩ := next?_eq_some h
  rfl

theorem Inherits.step (hp : p.Inherits setup inv) (hs : Step setup p q) :
    q.Inherits setup inv := by
  rcases step_iff.1 hs with hn | he
  · have hinv := inv_of_next hn
    exact ⟨hinv ▸ hp.lacks, hinv ▸ hp.address⟩
  · obtain ⟨target, hcode, haddress, -⟩ := inv_of_entered hp.lacks he
    exact ⟨hcode ▸ hp.lacks.borrowed target, haddress.trans hp.address⟩

theorem Inherits.along (setup : Setup) (inv : Invocation) :
    Along setup (Inherits setup inv) (World.Related (Speculation.Confined inv.address)) where
  toIsPreorder := inferInstance
  same h := .of_same h.overlay h.accesses
  step hp hs := hp.step hs
  begun {p opcode} hp hop := by
    have he := start_effect setup p.inv (p.noted opcode) (Instruction.decode opcode)
    rw [World.Related, begun_run hop, ← hp.address]
    rw [noted_run] at he
    refine .of_effect he fun hd => ?_
    exact hp.lacks.systemByte?_notMem (opcode_mem hop) 0xff (by decide) (by rw [hd]; rfl)

structure Delegated (setup : Setup) (inv : Invocation) (p : Point) : Prop
    extends Inherits setup inv p where
  notCallCode : setup.Lacks [0xf2] p.inv.code.bytes
  caller : p.inv.caller = inv.caller
  value : p.inv.value = inv.value

theorem Delegated.step (hp : p.Delegated setup inv) (hs : Step setup p q) :
    q.Delegated setup inv := by
  have hi := hp.toInherits.step hs
  rcases step_iff.1 hs with hn | he
  · have hinv := inv_of_next hn
    exact ⟨hi, hinv ▸ hp.notCallCode, hinv ▸ hp.caller, hinv ▸ hp.value⟩
  · obtain ⟨target, hcode, -, hsame⟩ := inv_of_entered hp.lacks he
    obtain ⟨hcaller, hvalue⟩ := hsame (hp.notCallCode.code 0xf2 List.mem_cons_self)
    have hlacks := hcode ▸ hp.notCallCode.borrowed target
    exact ⟨hi, hlacks, hcaller.trans hp.caller, hvalue.trans hp.value⟩

theorem Delegated.of_reaches (hp : p.Delegated setup inv) (hr : Reaches setup p q) :
    q.Delegated setup inv := by
  induction hr with
  | refl => exact hp
  | tail _ hs ih => exact ih.step hs

end Point

open Point Speculation

/-- If no code has the bytes of `CALL`, `STATICCALL`, `CREATE`, `CREATE2` or `SELFDESTRUCT`, the
frames of all depths act on the account of the first one, and at each of their instructions, when
they end and when the run ends, however it ends, all that the run has written is storage of that
account. Without the byte of `CALLCODE` all frames have the caller and the value of the first one as
well. -/
theorem delegation_stays_with_account (setup : Setup) (inv : Invocation) (m : Machine Nonces)
    (h : setup.Lacks leavingBytes inv.code.bytes) :
    (∀ p, Reaches setup (start setup inv m) p → p.inv.address = inv.address ∧
      Confined inv.address m.world.run p.run ∧
      Confined inv.address m.world.run (p.left setup).world.run) ∧
    Confined inv.address m.world.run ((Nesting.execute setup inv).final m).world.run ∧
    (setup.Lacks [0xf2] inv.code.bytes → ∀ p, Reaches setup (start setup inv m) p →
      p.inv.caller = inv.caller ∧ p.inv.value = inv.value) := by
  have halong := Inherits.along setup inv
  have hstart : (start setup inv m).Inherits setup inv := ⟨h, rfl⟩
  refine ⟨fun p hr => ?_, ?_, fun hc p hr => ?_⟩
  · obtain ⟨hp, hrun⟩ := halong.of_reaches hstart hr
    exact ⟨hp.address, hrun, trans_of (Confined inv.address) hrun (halong.left hp)⟩
  · rw [run_final_execute]
    exact halong.left hstart
  · have hp : (start setup inv m).Delegated setup inv := ⟨hstart, hc, rfl, rfl⟩
    exact ⟨(hp.of_reaches hr).caller, (hp.of_reaches hr).value⟩

def delegating : Invocation :=
  ⟨⟨7⟩, ⟨9⟩, 3, .ofBytes #[0x5f, 0x5f, 0x5f, 0x5f, 0x60, 1, 0x5f, 0xf4], #[]⟩

/-- The code of account 1 stores a word for account 7, and no other account has storage; it runs
with the caller and the value of the frame that borrows it. -/
theorem delegating_stores_for_itself :
    let m : Machine Nonces := ⟨.fresh 64, freshWorld {}⟩
    let run := ((Nesting.execute faultingStore delegating).final m).world.run
    run.overlay.storage? ⟨7⟩ 2 = some 5 ∧
    (∀ b slot, b ≠ ⟨7⟩ → run.overlay.storage? b slot = none) ∧
    ∀ p, Reaches faultingStore (start faultingStore delegating m) p →
      p.inv.caller = ⟨9⟩ ∧ p.inv.value = 3 := by
  intro m run
  have hcode (a : Address) : faultingStore.committed.code a =
      if ⟨1⟩ = a then #[0x60, 5, 0x60, 2, 0x55, 0x0c] else #[] := by
    show ((((Ledger.empty.setCode ⟨1⟩ #[0x60, 5, 0x60, 2, 0x55, 0x0c]).account? a).map
      Account.code).getD #[]) = _
    rw [Ledger.setCode, Ledger.update, Ledger.account?_insert]
    split
    · rfl
    · simp [Ledger.account?, Ledger.empty]
  have hlacks (bytes : List UInt8) (hown : ∀ b ∈ bytes, b ∉ delegating.code.bytes)
      (hone : ∀ b ∈ bytes, b ∉ #[0x60, 5, 0x60, 2, 0x55, 0x0c]) :
      faultingStore.Lacks bytes delegating.code.bytes := by
    refine ⟨hown, fun a b hb => ?_⟩
    rw [hcode]
    split
    · exact hone b hb
    · exact Array.not_mem_empty b
  obtain ⟨-, hfinal, hsame⟩ := delegation_stays_with_account faultingStore delegating m
    (hlacks leavingBytes (by decide +kernel) (by decide +kernel))
  refine ⟨by decide +kernel, fun b slot hb => (hfinal.storage b slot hb).trans ?_,
    hsame (hlacks [0xf2] (by decide +kernel) (by decide +kernel))⟩
  exact Std.ExtTreeMap.getElem?_empty

end SpeculativeEvm
