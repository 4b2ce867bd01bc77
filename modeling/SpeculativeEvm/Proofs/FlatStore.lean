import SpeculativeEvm.Proofs.Nesting.Record

/-! The layers as one store. The overlay over the committed state shows every balance and every word
of storage as a flat store would that all stores and self-destructs of the run, in the order of
execution and of whatever frame, have updated and nothing else has. -/

namespace SpeculativeEvm

open Nesting Execute

structure FlatStore where
  balance : Address → Word
  storage : Address → Word → Word

namespace FlatStore

/-- The flat store that the overlay over the committed state shows. -/
def seen (c : Committed) (o : Overlay) : FlatStore := ⟨o.viewBalance c, o.viewStorage c⟩

def store (F : FlatStore) (a : Address) (slot value : Word) : FlatStore :=
  { F with storage := fun b other => if a = b ∧ slot = other then value else F.storage b other }

/-- Credits the balance of `a` to the beneficiary, modulo `2 ^ 256`; `a` is not debited. -/
def bequeath (F : FlatStore) (a beneficiary : Address) : FlatStore :=
  { F with balance := fun b =>
      if beneficiary = b then F.balance beneficiary + F.balance a else F.balance b }

/-- The update by an instruction of account `a` that finds these words on its stack. -/
def perform (F : FlatStore) (a : Address) : Instruction → List Word → FlatStore
  | .sstore, slot :: value :: _ => F.store a slot value
  | .selfDestruct, w :: _ => F.bequeath a (.ofWord w)
  | _, _ => F

/-- The update by the instruction at the point. -/
def turn (F : FlatStore) (p : Point) : FlatStore :=
  match p.opcode? with
  | some opcode => F.perform p.inv.address (Instruction.decode opcode) p.machine.frame.stack.words
  | none => F

theorem seen_setStorage (c : Committed) (o : Overlay) (a : Address) (slot value : Word) :
    seen c (o.setStorage a slot value) = (seen c o).store a slot value := by
  unfold seen store
  congr 1
  funext b other
  by_cases h : a = b ∧ slot = other <;> simp [Overlay.viewStorage, h]

theorem seen_credit (c : Committed) (o : Overlay) (a beneficiary : Address) :
    seen c (o.credit c beneficiary (o.viewBalance c a)) = (seen c o).bequeath a beneficiary := by
  unfold seen bequeath
  congr 1
  funext b
  exact o.viewBalance_credit c beneficiary b _

end FlatStore

def Instruction.changesAccounts : Instruction → Bool
  | sstore | selfDestruct => true
  | _ => false

theorem FlatStore.perform_of_not_changes {i : Instruction} (hi : i.changesAccounts = false)
    (F : FlatStore) (a : Address) (words : List Word) : F.perform a i words = F := by
  cases i with
  | sstore | selfDestruct => cases hi
  | _ => rfl

namespace Execute

variable {σ : Type} {setup : Setup} {inv : Invocation} {m : Machine σ}

theorem Effect.overlay {s t : Speculation} {i : Instruction} (h : Effect setup inv s i t)
    (hi : i.changesAccounts = false) : t.overlay = s.overlay := by
  cases h with
  | sstore | selfDestruct => cases hi
  | handBack _ output =>
    obtain ⟨returned, he⟩ := s.handBack_eq output
    rw [he]
  | _ => rfl

theorem seen_sstore : FlatStore.seen setup.committed ((sstore inv).final m).world.run.overlay =
    (FlatStore.seen setup.committed m.world.run.overlay).perform inv.address .sstore
      m.frame.stack.words := by
  obtain ⟨⟨pc, ⟨words⟩, memory, output⟩, world⟩ := m
  rw [sstore, Action.final, Machine.onStack_bind]
  rcases words with - | ⟨slot, - | ⟨value, rest⟩⟩
  · rfl
  · rfl
  · have hpop : Stack.popN 2 ⟨slot :: value :: rest⟩ = .ok ⟨#[slot, value], rfl⟩ ⟨rest⟩ := rfl
    simp only [hpop, Machine.note_bind, Machine.onRun_bind]
    exact FlatStore.seen_setStorage _ _ _ _ _

theorem seen_selfDestruct :
    FlatStore.seen setup.committed ((selfDestruct setup inv).final m).world.run.overlay =
      (FlatStore.seen setup.committed m.world.run.overlay).perform inv.address .selfDestruct
        m.frame.stack.words := by
  obtain ⟨⟨pc, ⟨words⟩, memory, output⟩, world⟩ := m
  rw [selfDestruct, Action.final, Machine.onStack_bind]
  rcases words with - | ⟨w, rest⟩
  · rfl
  · have hpop : Stack.pop ⟨w :: rest⟩ = .ok w ⟨rest⟩ := rfl
    simp only [hpop, Machine.readRun_bind, Machine.onRun_bind, Machine.note_bind]
    exact FlatStore.seen_credit _ _ _ _

/-- An instruction by itself updates the store that is seen as it updates a flat store. -/
theorem seen_start (setup : Setup) (inv : Invocation) (i : Instruction) (m : Machine σ) :
    FlatStore.seen setup.committed ((start setup inv i).final m).world.run.overlay =
      (FlatStore.seen setup.committed m.world.run.overlay).perform inv.address i
        m.frame.stack.words := by
  cases hi : i.changesAccounts with
  | false => rw [(start_effect setup inv m i).overlay hi, FlatStore.perform_of_not_changes hi]
  | true =>
    cases i with
    | sstore => exact final_alone m _ ▸ seen_sstore
    | selfDestruct => exact final_alone m _ ▸ seen_selfDestruct
    | _ => cases hi

theorem alone_of_ok {act : Action (Machine σ) Control} {control : Control} {m' : Machine σ}
    (h : act m = .ok control m') : alone act m = .ok (.done control) m' :=
  Action.bind_of_ok h

variable {slot w : Word} {rest : List Word}

theorem sload_seen (setup : Setup) (inv : Invocation) (h : m.frame.stack.words = slot :: rest) :
    ∃ m', sload setup inv m = .ok .next m' ∧ m'.frame.stack.words =
      (FlatStore.seen setup.committed m.world.run.overlay).storage inv.address slot :: rest := by
  obtain ⟨⟨pc, ⟨words⟩, memory, output⟩, world⟩ := m
  obtain rfl : words = slot :: rest := h
  exact ⟨_, rfl, rfl⟩

theorem balance_seen (setup : Setup) (h : m.frame.stack.words = w :: rest) :
    ∃ m', account setup .balance m = .ok .next m' ∧ m'.frame.stack.words =
      (FlatStore.seen setup.committed m.world.run.overlay).balance (.ofWord w) :: rest := by
  obtain ⟨⟨pc, ⟨words⟩, memory, output⟩, world⟩ := m
  obtain rfl : words = w :: rest := h
  exact ⟨_, rfl, rfl⟩

theorem selfBalance_seen (setup : Setup) (inv : Invocation)
    (h : m.frame.stack.depth < maxStackDepth) :
    ∃ m', selfBalance setup inv m = .ok .next m' ∧ m'.frame.stack.words =
      (FlatStore.seen setup.committed m.world.run.overlay).balance inv.address ::
        m.frame.stack.words := by
  rw [selfBalance, Machine.readRun_bind, Machine.onRun_bind, pushWord_apply, if_pos h]
  exact ⟨_, rfl, rfl⟩

end Execute

namespace Point

/-- The instruction succeeds and leaves these words on the stack. -/
def Completes (setup : Setup) (p : Point) (words : List Word) : Prop :=
  ∃ opcode goesOn m, p.opcode? = some opcode ∧
    Interpreter.advance setup (host setup p.depth) p.inv opcode p.machine = .ok goesOn m ∧
    m.frame.stack.words = words

variable {setup : Setup} {p : Point} {i : Instruction} {words : List Word}

theorem completes_of_start (hi : p.instruction? = some i)
    (h : ∀ {m : Machine Nonces}, m.frame = p.machine.frame → m.world.run = p.run →
      ∃ control m', Execute.start setup p.inv i m = .ok (.done control) m' ∧
        m'.frame.stack.words = words) : p.Completes setup words := by
  obtain ⟨opcode, hop, rfl⟩ := Option.map_eq_some_iff.1 hi
  obtain ⟨control, m', hs, hw⟩ := h (p.noted_frame opcode) (p.noted_run opcode)
  have hx : execute setup (host setup p.depth) p.inv (Instruction.decode opcode)
      (p.noted opcode) = .ok control m' := by
    rw [execute, Action.bind_of_ok hs]
    rfl
  obtain ⟨goesOn, pc, journal, ha⟩ := advance_of_execute_ok hx
  exact ⟨opcode, goesOn, _, hop, ha, hw⟩

end Point

/-- What the instructions that read accounts return at the point is what `F` holds. -/
structure FlatStore.Serves (setup : Setup) (F : FlatStore) (p : Point) : Prop where
  sload {slot : Word} {rest : List Word} (hi : p.instruction? = some .sload)
    (h : p.machine.frame.stack.words = slot :: rest) :
    p.Completes setup (F.storage p.inv.address slot :: rest)
  balance {w : Word} {rest : List Word} (hi : p.instruction? = some (.account .balance))
    (h : p.machine.frame.stack.words = w :: rest) :
    p.Completes setup (F.balance (.ofWord w) :: rest)
  selfBalance (hi : p.instruction? = some .selfBalance)
    (h : p.machine.frame.stack.depth < maxStackDepth) :
    p.Completes setup (F.balance p.inv.address :: p.machine.frame.stack.words)

namespace FlatStore

variable {setup : Setup} {p : Point}

theorem serves_seen (setup : Setup) (p : Point) :
    (seen setup.committed p.run.overlay).Serves setup p where
  sload hi h := by
    refine Point.completes_of_start hi fun {m} hf hr => ?_
    rw [← hf] at h
    obtain ⟨m', hm, hw⟩ := sload_seen setup p.inv h
    exact ⟨_, m', alone_of_ok hm, hr ▸ hw⟩
  balance hi h := by
    refine Point.completes_of_start hi fun {m} hf hr => ?_
    rw [← hf] at h
    obtain ⟨m', hm, hw⟩ := balance_seen setup h
    exact ⟨_, m', alone_of_ok hm, hr ▸ hw⟩
  selfBalance hi h := by
    refine Point.completes_of_start hi fun {m} hf hr => ?_
    rw [← hf] at h ⊢
    obtain ⟨m', hm, hw⟩ := selfBalance_seen setup p.inv h
    exact ⟨_, m', alone_of_ok hm, hr ▸ hw⟩

theorem retold (setup : Setup) :
    Retold setup (fun w => seen setup.committed w.run.overlay) turn where
  same h := by rw [h.overlay]
  turn {p opcode} hop := by
    rw [Point.begun_run hop, seen_start, Point.noted_run, Point.noted_frame, turn, hop]
    rfl

end FlatStore

open FlatStore Point

/-- At every point of the run the instructions that read accounts return what a flat store holds by
then, updated by nothing but the stores and self-destructs of all frames in the order of execution,
and at the end the overlay over the committed state shows just that store. -/
theorem overlay_refines_flatStore (setup : Setup) (inv : Invocation) (m : Machine Nonces) :
    let F := seen setup.committed m.world.run.overlay
    let course := (start setup inv m).course setup
    (∀ pre p post, course = pre ++ .starts p :: post →
      (pre.foldl (Moment.retell turn) F).Serves setup p) ∧
    seen setup.committed ((Nesting.execute setup inv).final m).world.run.overlay =
      course.foldl (Moment.retell turn) F := by
  intro F course
  have h := (retold setup).tells (start setup inv m)
  constructor
  · intro pre p post hc
    have hx : (start setup inv m).course setup = pre ++ .starts p :: post := hc
    rw [hx] at h
    have hp : seen setup.committed p.run.overlay = pre.foldl (Moment.retell turn) F := h.at
    rw [← hp]
    exact serves_seen setup p
  · rw [run_final_execute]
    exact h.eq_foldl

def storingFive : Setup :=
  ⟨{}, {}, (Ledger.empty.setCode ⟨1⟩
    #[0x60, 5, 0x60, 2, 0x55, 0x60, 1, 0x5f, 0xf3]).committed⟩

def delegatingLoad : Invocation :=
  ⟨⟨0⟩, .zero, 0, .ofBytes #[0x5f, 0x5f, 0x5f, 0x5f, 0x60, 1, 0x5f, 0xf4, 0x60, 2, 0x54], #[]⟩

/-- The nested frame has stored for account 0, so the load finds the 5. -/
theorem delegatedStore_loaded :
    let m : Machine Nonces := ⟨.fresh 64, freshWorld {}⟩
    ∃ p, .starts p ∈ (start storingFive delegatingLoad m).course storingFive ∧
      p.instruction? = some .sload ∧ p.Completes storingFive [5, 1] := by
  intro m
  let course := (start storingFive delegatingLoad m).course storingFive
  let F := (course.take 28).foldl (Moment.retell turn)
    (seen storingFive.committed m.world.run.overlay)
  have hserves : ∀ p post, course = course.take 28 ++ .starts p :: post → F.Serves storingFive p :=
    (overlay_refines_flatStore storingFive delegatingLoad m).1 _
  have hx : (course[28]?.bind Moment.started?).any (fun p => decide (p.instruction? = some .sload ∧
      p.machine.frame.stack.words = [2, 1] ∧ F.storage p.inv.address 2 = 5)) = true := by
    decide +kernel
  show ∃ p, .starts p ∈ course ∧ p.instruction? = some .sload ∧ p.Completes storingFive [5, 1]
  -- from here on the course is not computed any more
  clear_value F course
  obtain ⟨p, hp, h⟩ := (Option.any_eq_true _ _).1 hx
  obtain ⟨hi, hw, hF⟩ := of_decide_eq_true h
  obtain ⟨x, hget, hstarted⟩ := Option.bind_eq_some_iff.1 hp
  obtain rfl := Moment.eq_starts_of_started? hstarted
  obtain ⟨hlt, hget'⟩ := List.getElem?_eq_some_iff.1 hget
  have hc : course = course.take 28 ++ .starts p :: course.drop 29 := by
    rw [← hget', ← List.drop_eq_getElem_cons hlt, List.take_append_drop]
  have hl := (hserves p _ hc).sload hi hw
  rw [hF] at hl
  exact ⟨p, List.mem_of_getElem? hget, hi, hl⟩

end SpeculativeEvm
