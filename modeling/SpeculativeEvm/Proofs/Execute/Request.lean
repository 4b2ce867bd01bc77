import SpeculativeEvm.Proofs.Execute.Parts
import SpeculativeEvm.Proofs.Memory

/-! Calls and creations up to the point where the host is asked. One that gets there has taken its
operands off the stack, cleared the level below and changed nothing else of the run or the frame;
one that faults has at most cleared the level below. -/

namespace SpeculativeEvm

def CallKind.arity : CallKind → Nat
  | call | callCode => 7
  | delegateCall | staticCall => 6

namespace Instruction

def requestArity : Instruction → Nat
  | call kind => kind.arity
  | create => 3
  | saltedCreate => 4
  | _ => 0

/-- Whether `i` asks the host for `request` and is finished by `resolution`. -/
def Asks (i : Instruction) (request : Request) (resolution : Resolution) : Prop :=
  match i with
  | call kind => request.isCreation = false ∧ ∃ output, resolution = .call kind.mnemonic output
  | create | saltedCreate => request.isCreation = true ∧ resolution = .create
  | _ => False

end Instruction

namespace Machine

variable {σ : Type}

/-- The second machine is the first one with a request on its way: `n` words are gone and the level
below is cleared. -/
structure Asking (n : Nat) (m m' : Machine σ) : Prop where
  stack : m'.frame.stack.words = m.frame.stack.words.drop n
  memory : m'.frame.memory = m.frame.memory
  output : m'.frame.output = m.frame.output
  run : m'.world.run = m.world.run.clearBelow
  host : m'.world.host = m.world.host

structure Unasked (m m' : Machine σ) : Prop where
  output : m'.frame.output = m.frame.output
  run : m'.world.run = m.world.run ∨ m'.world.run = m.world.run.clearBelow
  host : m'.world.host = m.world.host

inductive Requested (P : Request → Resolution → Prop) (n : Nat) (m : Machine σ) :
    EStateM.Result Fault (Machine σ) Progress → Prop
  | asked {request : Request} {resolution : Resolution} {m' : Machine σ} :
    P request resolution → Asking n m m' → Requested P n m (.ok (.ask request resolution) m')
  | failed {e : Fault} {m' : Machine σ} : Unasked m m' → Requested P n m (.error e m')

/-- Taking the operands off the stack before a request. -/
theorem Requested.popN {P : Request → Resolution → Prop} (n : Nat)
    (f : Vector Word n → Action (Machine σ) Progress) (m : Machine σ)
    (h : ∀ ops m', Requested P 0 m' (f ops m')) :
    Requested P n m ((onStack (Stack.popN n) >>= f) m) := by
  rw [onStack_bind, Stack.popN]
  by_cases hn : (m.frame.stack.words.take n).length = n
  · simp only [dif_pos hn]
    have := h ⟨(m.frame.stack.words.take n).toArray, hn⟩
      ⟨{ m.frame with stack := ⟨m.frame.stack.words.drop n⟩ }, m.world⟩
    generalize f _ _ = r at this ⊢
    cases this with
    | asked hp ha => exact .asked hp ⟨ha.stack, ha.memory, ha.output, ha.run, ha.host⟩
    | failed hu => exact .failed ⟨hu.output, hu.run, hu.host⟩
  · simp only [dif_neg hn]
    exact .failed ⟨rfl, .inl rfl, rfl⟩

end Machine

theorem Memory.get_cases (offset size : Nat) (m : Memory) :
    (∃ data, get offset size m = .ok data m) ∨ ∃ e, get offset size m = .error e m := by
  have hw := m.get_worked offset size
  generalize get offset size m = r at hw ⊢
  cases hw with
  | empty | done => exact .inl ⟨_, rfl⟩
  | refused => exact .inr ⟨_, rfl⟩

namespace Execute

open Machine

variable {σ : Type}

theorem beginRequest_bind {α : Type} (op : String) (target : Option Address)
    (f : Unit → Action (Machine σ) α) (m : Machine σ) :
    (beginRequest op target >>= f) m = f () ⟨m.frame, ⟨m.world.run.clearBelow, m.world.host,
      m.world.journal.note (.dispatching op target m.world.run.level)⟩⟩ := by
  refine Action.bind_of_ok ?_
  rw [beginRequest, onRun_bind, note_apply]
  rfl

variable {P : Request → Resolution → Prop}

theorem askCall_requested (kind : CallKind) (target : Address) (input output : Except Fault Span)
    {request : Bytes → Request} (h : ∀ data out, P (request data) (.call kind.mnemonic out))
    (m : Machine σ) : Requested P 0 m (askCall kind target input output request m) := by
  rw [askCall, check_bind]
  rcases input with e | input
  · exact .failed ⟨rfl, .inl rfl, rfl⟩
  simp only [check_bind]
  rcases output with e | output
  · exact .failed ⟨rfl, .inl rfl, rfl⟩
  simp only [beginRequest_bind, onMemory_bind]
  rcases m.frame.memory.get_cases input.offset input.size with ⟨data, hg⟩ | ⟨e, hg⟩ <;> rw [hg]
  · exact .asked (h data output) ⟨rfl, rfl, rfl, rfl, rfl⟩
  · exact .failed ⟨rfl, .inr rfl, rfl⟩

theorem askCreate_requested (op : String) (init : Except Fault Span) {request : Bytes → Request}
    (h : ∀ code, P (request code) .create) (m : Machine σ) :
    Requested P 0 m (askCreate op init request m) := by
  rw [askCreate, check_bind]
  rcases init with e | init
  · exact .failed ⟨rfl, .inl rfl, rfl⟩
  simp only [beginRequest_bind, onMemory_bind]
  rcases m.frame.memory.get_cases init.offset init.size with ⟨code, hg⟩ | ⟨e, hg⟩ <;> rw [hg]
  · exact .asked (h code) ⟨rfl, rfl, rfl, rfl, rfl⟩
  · exact .failed ⟨rfl, .inl rfl, rfl⟩

theorem call_requested (kind : CallKind) (m : Machine σ) :
    Requested (Instruction.call kind).Asks kind.arity m (call kind m) := by
  have h (request : Bytes → Request) (hr : ∀ data, (request data).isCreation = false) (data out) :
      (Instruction.call kind).Asks (request data) (.call kind.mnemonic out) := ⟨hr data, out, rfl⟩
  cases kind with
  | call | callCode =>
    exact .popN 7 _ m fun ⟨⟨[_, _, _, _, _, _, _]⟩, _⟩ m' =>
      askCall_requested _ _ _ _ (h _ fun _ => rfl) m'
  | delegateCall | staticCall =>
    exact .popN 6 _ m fun ⟨⟨[_, _, _, _, _, _]⟩, _⟩ m' =>
      askCall_requested _ _ _ _ (h _ fun _ => rfl) m'

theorem create_requested (m : Machine σ) : Requested Instruction.create.Asks 3 m (create m) :=
  .popN 3 _ m fun ⟨⟨[_, _, _]⟩, _⟩ _ => askCreate_requested _ _ (fun _ => ⟨rfl, rfl⟩) _

theorem saltedCreate_requested (m : Machine σ) :
    Requested Instruction.saltedCreate.Asks 4 m (saltedCreate m) :=
  .popN 4 _ m fun ⟨⟨[_, _, _, _]⟩, _⟩ _ => askCreate_requested _ _ (fun _ => ⟨rfl, rfl⟩) _

theorem alone_ne_ask {act : Action (Machine σ) Control} {m m' : Machine σ} {request : Request}
    {resolution : Resolution} : alone act m ≠ .ok (.ask request resolution) m' := by
  rw [alone, Action.bind_apply]
  rcases act m with ⟨c, t⟩ | ⟨e, t⟩
  · exact fun h => by cases h
  · exact fun h => by cases h

/-- Only calls and creations ask the host. -/
theorem start_ask (setup : Setup) (inv : Invocation) {i : Instruction} {m m' : Machine σ}
    {request : Request} {resolution : Resolution}
    (h : start setup inv i m = .ok (.ask request resolution) m') :
    i.Asks request resolution ∧ Asking i.requestArity m m' := by
  have key {P : Request → Resolution → Prop} {n : Nat}
      {r : EStateM.Result Fault (Machine σ) Progress} (hr : Requested P n m r)
      (he : r = .ok (.ask request resolution) m') :
      P request resolution ∧ Asking n m m' := by
    subst he
    cases hr with
    | asked hp ha => exact ⟨hp, ha⟩
  cases i with
  | call kind => exact key (call_requested kind m) h
  | create => exact key (create_requested m) h
  | saltedCreate => exact key (saltedCreate_requested m) h
  | stop | jumpDest | undefined => cases h
  | _ => exact absurd h alone_ne_ask

end Execute

end SpeculativeEvm
