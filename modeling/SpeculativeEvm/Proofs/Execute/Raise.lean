import SpeculativeEvm.Proofs.Execute.Resolve
import SpeculativeEvm.Proofs.Memory

/-! Which faults actions raise. Instructions share a few: too few or too many words on the stack,
and ranges of memory that are no ranges or reach too far. Apart from these, only a quantity that is
no word and an undefined byte are faults of an instruction by itself. -/

namespace SpeculativeEvm

variable {σ α β : Type} {P : Fault → Prop}

def Action.Raises (P : Fault → Prop) (x : Action σ α) : Prop := ∀ s e t, x s = .error e t → P e

namespace Action.Raises

/-- An action that always succeeds raises nothing. -/
theorem of_ok {x : Action σ α} (h : ∀ s, ∃ a t, x s = .ok a t) : x.Raises P := by
  intro s e t he
  obtain ⟨a, t', ha⟩ := h s
  cases ha.symm.trans he

protected theorem pure (a : α) : (pure a : Action σ α).Raises P := .of_ok fun s => ⟨a, s, rfl⟩

protected theorem get : (get : Action σ σ).Raises P := .of_ok fun s => ⟨s, s, rfl⟩

protected theorem throw {e : Fault} (h : P e) : (throw e : Action σ α).Raises P := by
  intro s e' t he
  cases he
  exact h

protected theorem bind {x : Action σ α} {f : α → Action σ β} (hx : x.Raises P)
    (hf : ∀ a, (f a).Raises P) : (x >>= f).Raises P := by
  intro s e t he
  rcases hr : x s with ⟨a, s'⟩ | ⟨e', s'⟩
  · rw [bind_of_ok hr] at he
    exact hf a s' e t he
  · rw [bind_of_error hr] at he
    cases he
    exact hx s e t hr

protected theorem map {f : α → β} {x : Action σ α} (hx : x.Raises P) : (f <$> x).Raises P := by
  intro s e t he
  rw [map_apply] at he
  rcases hr : x s with ⟨a, s'⟩ | ⟨e', s'⟩
  · rw [hr] at he
    cases he
  · rw [hr] at he
    cases he
    exact hx s e t hr

end Action.Raises

structure Fault.OfRanges (P : Fault → Prop) : Prop where
  access : P .invalidMemoryAccess
  limit (requested limit : Nat) : P (.memoryLimitExceeded requested limit)

structure Fault.OfOperands (P : Fault → Prop) : Prop extends Fault.OfRanges P where
  underflow : P .stackUnderflow
  overflow : P .stackOverflow

section Stack

variable (hP : Fault.OfOperands P)

include hP

theorem Stack.push_raises (w : Word) : (push w).Raises P := by
  intro s e t he
  unfold push at he
  split at he
  · cases he
  · cases he
    exact hP.overflow

theorem Stack.IsOp.raises {act : Action Stack α} (h : IsOp act) : act.Raises P := by
  intro s e t he
  cases h with
  | push w => exact push_raises hP w s e t he
  | pop | peek | poke =>
    obtain ⟨words⟩ := s
    cases words with
    | nil =>
      cases he
      exact hP.underflow
    | cons w rest => cases he
  | popN n =>
    unfold Stack.popN at he
    split at he
    · cases he
    · cases he
      exact hP.underflow
  | swap n =>
    unfold Stack.swap at he
    split at he
    · cases he
      exact hP.underflow
    · split at he
      · cases he
        exact hP.underflow
      · split at he
        · cases he
        · cases he
          exact hP.underflow
  | dup n =>
    unfold Stack.dup at he
    split at he
    · cases he
      exact hP.underflow
    · split at he
      · exact push_raises hP _ s e t he
      · cases he
        exact hP.underflow

end Stack

theorem indexOf_eq (w : Word) :
    indexOf w = if w.toNat < addressSpace then .ok w.toNat else .error .invalidMemoryAccess := by
  unfold indexOf Word.index?
  by_cases h : w.toNat < addressSpace
  · rw [if_pos h, if_pos h]
  · rw [if_neg h, if_neg h]

/-- The check of a range refuses only ranges past the end of the addresses, and gives the range
itself, or the empty range at zero for an empty one. -/
theorem spanOf_cases (offset size : Word) :
    (spanOf offset size = .error .invalidMemoryAccess ∧ size.toNat ≠ 0 ∧
      addressSpace ≤ offset.toNat + size.toNat) ∨
    (spanOf offset size = .ok ⟨0, 0⟩ ∧ size.toNat = 0) ∨
    spanOf offset size = .ok ⟨offset.toNat, size.toNat⟩ := by
  unfold spanOf
  rw [indexOf_eq, indexOf_eq]
  by_cases hs : size.toNat < addressSpace
  · rw [if_pos hs]
    by_cases hz : size.toNat = 0
    · exact .inr (.inl ⟨if_pos hz, hz⟩)
    by_cases ho : offset.toNat < addressSpace
    · rw [if_pos ho]
      exact .inr (.inr (if_neg hz))
    · rw [if_neg ho]
      exact .inl ⟨if_neg hz, hz, by omega⟩
  · have hz : size.toNat ≠ 0 := by
      unfold addressSpace UInt64.size at hs
      omega
    rw [if_neg hs]
    exact .inl ⟨rfl, hz, by omega⟩

section Ranges

variable (hP : Fault.OfRanges P)

include hP

theorem of_indexOf {w : Word} {e : Fault} (h : indexOf w = .error e) : P e := by
  rw [indexOf_eq] at h
  split at h
  · cases h
  · cases h
    exact hP.access

theorem of_spanOf {offset size : Word} {e : Fault} (h : spanOf offset size = .error e) : P e := by
  obtain ⟨hspan, -, -⟩ | ⟨hspan, -⟩ | hspan := spanOf_cases offset size
  · rw [hspan] at h
    cases h
    exact hP.access
  · rw [hspan] at h
    cases h
  · rw [hspan] at h
    cases h

namespace Memory

theorem of_refusal {limit offset size : Nat} {e : Fault} (h : refusal limit offset size = some e) :
    P e := by
  unfold refusal at h
  split at h
  · cases h
    exact hP.access
  · split at h
    · cases h
      exact hP.limit _ _
    · cases h

theorem raises_of_worked {x : Action Memory α} {k : Memory → Memory} {offset size : Nat}
    (h : ∀ m, Worked offset size m (k m) (x m)) : x.Raises P := by
  intro m e t he
  have hw := h m
  rw [he] at hw
  cases hw with
  | refused _ hr => exact of_refusal hP hr

theorem get_raises (offset size : Nat) : (get offset size).Raises P :=
  raises_of_worked hP fun m => m.get_worked offset size

theorem set_raises (offset size : Nat) (value : Bytes) : (set offset size value).Raises P :=
  raises_of_worked hP fun m => m.set_worked offset size value

theorem copyFrom_raises (offset size : Nat) (source : Bytes) (start : Nat) :
    (copyFrom offset size source start).Raises P :=
  raises_of_worked hP fun m => m.copyFrom_worked offset size source start

theorem load_raises (offset : Nat) : (load offset).Raises P :=
  .bind (raises_of_worked hP fun m => m.expand_worked offset 32) fun _ =>
    .bind .get fun _ => .pure _

end Memory

end Ranges

namespace Machine

theorem onStack_raises {act : Action Stack α} (h : act.Raises P) :
    (onStack act : Action (Machine σ) α).Raises P := by
  intro ⟨⟨pc, stack, memory, output⟩, world⟩ e t he
  unfold onStack at he
  rcases hr : act stack with ⟨a, stack'⟩ | ⟨e', stack'⟩
  · simp only [hr] at he
    cases he
  · simp only [hr] at he
    cases he
    exact h stack e stack' hr

theorem onMemory_raises {act : Action Memory α} (h : act.Raises P) :
    (onMemory act : Action (Machine σ) α).Raises P := by
  intro ⟨⟨pc, stack, memory, output⟩, world⟩ e t he
  unfold onMemory at he
  rcases hr : act memory with ⟨a, memory'⟩ | ⟨e', memory'⟩
  · simp only [hr] at he
    cases he
  · simp only [hr] at he
    cases he
    exact h memory e memory' hr

theorem onWorld_raises {act : Action (World σ) α} (h : act.Raises P) :
    (onWorld act : Action (Machine σ) α).Raises P := by
  intro m e t he
  rw [onWorld_apply] at he
  rcases hr : act m.world with ⟨a, w⟩ | ⟨e', w⟩
  · rw [hr] at he
    cases he
  · rw [hr] at he
    cases he
    exact h m.world e w hr

theorem check_raises {r : Except Fault α} (h : ∀ e, r = .error e → P e) :
    (check r : Action (Machine σ) α).Raises P := by
  intro m e t he
  cases r with
  | ok a => cases he
  | error e' =>
    cases he
    exact h e rfl

theorem onRun_raises (f : Speculation → Speculation) :
    (onRun f : Action (Machine σ) Unit).Raises P := .of_ok fun _ => ⟨_, _, rfl⟩

theorem readRun_raises (f : Speculation → α) : (readRun f : Action (Machine σ) α).Raises P :=
  .of_ok fun _ => ⟨_, _, rfl⟩

theorem note_raises (event : Machine σ → Event) : (note event).Raises P :=
  .of_ok fun m => ⟨_, _, note_apply m event⟩

end Machine

namespace Execute

open Machine

theorem of_fitWord {what : String} {n : Nat} {e : Fault} (h : fitWord what n = .error e) :
    e.isFatal = true := by
  unfold fitWord at h
  split at h
  · cases h
  · cases h
    rfl

/-- A quantity that is not known is one that is no word. -/
theorem of_quantityOf {setup : Setup} {inv : Invocation} {frame : Frame} {q : Quantity} {e : Fault}
    (h : quantityOf setup inv frame q = .error e) : e.isFatal = true := by
  cases q with
  | gasPrice | difficulty => exact of_fitWord h
  | _ => cases h

variable (hP : Fault.OfOperands P)

include hP

theorem stack_raises {act : Action Stack α} (h : Stack.IsOp act) :
    (onStack act : Action (Machine σ) α).Raises P :=
  onStack_raises (h.raises hP)

theorem index_raises (w : Word) : (check (indexOf w) : Action (Machine σ) Nat).Raises P :=
  check_raises fun _ => of_indexOf hP.toOfRanges

theorem span_raises (offset size : Word) :
    (check (spanOf offset size) : Action (Machine σ) Span).Raises P :=
  check_raises fun _ => of_spanOf hP.toOfRanges

theorem pushWord_raises (w : Word) : (pushWord w : Action (Machine σ) Control).Raises P :=
  .bind (stack_raises hP (.push w)) fun _ => .pure _

theorem drop_raises (n : Nat) : (drop n : Action (Machine σ) Unit).Raises P := by
  induction n with
  | zero => exact .pure _
  | succ n ih => exact .bind (.map (stack_raises hP .pop)) fun _ => ih

omit hP in
theorem alone_raises {act : Action (Machine σ) Control} (h : act.Raises P) :
    (alone act).Raises P :=
  .bind h fun _ => .pure _

omit hP in
theorem beginRequest_raises (op : String) (target : Option Address) :
    (beginRequest op target : Action (Machine σ) Unit).Raises P :=
  .bind (onRun_raises _) fun _ => note_raises _

theorem askCall_raises (kind : CallKind) (target : Address)
    (inOffset inSize outOffset outSize : Word) (request : Bytes → Request) :
    (askCall kind target (spanOf inOffset inSize) (spanOf outOffset outSize) request :
      Action (Machine σ) Progress).Raises P :=
  .bind (span_raises hP _ _) fun _ => .bind (span_raises hP _ _) fun _ =>
    .bind (beginRequest_raises _ _) fun _ =>
      .bind (onMemory_raises (Memory.get_raises hP.toOfRanges _ _)) fun _ => .pure _

theorem call_raises (kind : CallKind) : (call kind : Action (Machine σ) Progress).Raises P := by
  cases kind with
  | call | callCode =>
    exact .bind (stack_raises hP (.popN 7)) fun ⟨⟨[_, _, _, _, _, _, _]⟩, _⟩ =>
      askCall_raises hP _ _ _ _ _ _ _
  | delegateCall | staticCall =>
    exact .bind (stack_raises hP (.popN 6)) fun ⟨⟨[_, _, _, _, _, _]⟩, _⟩ =>
      askCall_raises hP _ _ _ _ _ _ _

theorem askCreate_raises (op : String) (offset size : Word) (request : Bytes → Request) :
    (askCreate op (spanOf offset size) request : Action (Machine σ) Progress).Raises P :=
  .bind (span_raises hP _ _) fun _ =>
    .bind (onMemory_raises (Memory.get_raises hP.toOfRanges _ _)) fun _ =>
      .bind (beginRequest_raises _ _) fun _ => .pure _

theorem giveBack_raises : (giveBack : Action (Machine σ) Control).Raises P := by
  have hset (output : Bytes) : (setOutput output : Action (Machine σ) Unit).Raises P :=
    .of_ok fun _ => ⟨_, _, rfl⟩
  refine .bind (stack_raises hP (.popN 2)) fun ⟨⟨[_, _]⟩, _⟩ =>
    .bind (span_raises hP _ _) fun _ =>
      .bind (onMemory_raises (Memory.get_raises hP.toOfRanges _ _)) fun output => ?_
  split
  · exact .bind (onRun_raises _) fun _ => .bind (hset _) fun _ => .pure _
  · exact .bind (hset _) fun _ => .pure _

/-- What an instruction raises by itself. -/
theorem start_raises (setup : Setup) (inv : Invocation) {i : Instruction}
    (hq : ∀ q frame e, i = .quantity q → quantityOf setup inv frame q = .error e → P e)
    (hu : ∀ byte, i = .undefined byte → P (.invalidOpcode byte)) :
    (start setup inv i : Action (Machine σ) Progress).Raises P := by
  have hpc : (Machine.pc : Action (Machine σ) Nat).Raises P := .of_ok fun _ => ⟨_, _, rfl⟩
  have hsetPc (n : Nat) : (setPc n : Action (Machine σ) Unit).Raises P :=
    .of_ok fun _ => ⟨_, _, rfl⟩
  cases i with
  | stop | jumpDest => exact .pure _
  | undefined byte => exact .throw (hu byte rfl)
  | unary | blockHash | callDataLoad =>
    exact alone_raises (.bind (stack_raises hP .peek) fun _ =>
      .bind (stack_raises hP (.poke _)) fun _ => .pure _)
  | binary =>
    exact alone_raises (.bind (stack_raises hP .pop) fun _ => .bind (stack_raises hP .peek) fun _ =>
      .bind (stack_raises hP (.poke _)) fun _ => .pure _)
  | ternary =>
    exact alone_raises (.bind (stack_raises hP .pop) fun _ => .bind (stack_raises hP .pop) fun _ =>
      .bind (stack_raises hP .peek) fun _ => .bind (stack_raises hP (.poke _)) fun _ => .pure _)
  | keccak =>
    exact alone_raises (.bind (stack_raises hP .pop) fun _ => .bind (stack_raises hP .peek) fun _ =>
      .bind (span_raises hP _ _) fun _ =>
        .bind (onMemory_raises (Memory.get_raises hP.toOfRanges _ _)) fun _ =>
          .bind (stack_raises hP (.poke _)) fun _ => .pure _)
  | quantity q =>
    exact alone_raises (.bind .get fun m => .bind (check_raises fun e => hq q m.frame e rfl)
      fun _ => pushWord_raises hP _)
  | copy =>
    exact alone_raises (.bind (stack_raises hP (.popN 3)) fun ⟨⟨[_, _, _]⟩, _⟩ =>
      .bind (span_raises hP _ _) fun _ =>
        .bind (onMemory_raises (Memory.copyFrom_raises hP.toOfRanges _ _ _ _)) fun _ => .pure _)
  | returnDataCopy =>
    exact alone_raises (.bind (.map (stack_raises hP (.popN 3))) fun _ => .pure _)
  | pop => exact alone_raises (.bind (.map (stack_raises hP .pop)) fun _ => .pure _)
  | mload =>
    exact alone_raises (.bind (stack_raises hP .peek) fun _ => .bind (index_raises hP _) fun _ =>
      .bind (onMemory_raises (Memory.load_raises hP.toOfRanges _)) fun _ =>
        .bind (stack_raises hP (.poke _)) fun _ => .pure _)
  | mstore | mstore8 =>
    exact alone_raises (.bind (stack_raises hP (.popN 2)) fun ⟨⟨[_, _]⟩, _⟩ =>
      .bind (index_raises hP _) fun _ =>
        .bind (onMemory_raises (Memory.set_raises hP.toOfRanges _ _ _)) fun _ => .pure _)
  | jump => exact alone_raises (.bind (stack_raises hP .pop) fun _ => .pure _)
  | jumpIf => exact alone_raises (.bind (stack_raises hP (.popN 2)) fun ⟨⟨[_, _]⟩, _⟩ => .pure _)
  | push =>
    exact alone_raises (.bind hpc fun _ => .bind (stack_raises hP (.push _)) fun _ =>
      .bind (hsetPc _) fun _ => .pure _)
  | dup place => exact alone_raises (.bind (stack_raises hP (.dup place)) fun _ => .pure _)
  | swap place => exact alone_raises (.bind (stack_raises hP (.swap place)) fun _ => .pure _)
  | log topics => exact alone_raises (.bind (drop_raises hP _) fun _ => .pure _)
  | account =>
    exact alone_raises (.bind (stack_raises hP .peek) fun _ => .bind .get fun _ =>
      .bind (stack_raises hP (.poke _)) fun _ => .bind (onRun_raises _) fun _ => .pure _)
  | selfBalance =>
    exact alone_raises (.bind (readRun_raises _) fun _ => .bind (onRun_raises _) fun _ =>
      pushWord_raises hP _)
  | extCodeCopy =>
    exact alone_raises (.bind (stack_raises hP (.popN 4)) fun ⟨⟨[_, _, _, _]⟩, _⟩ =>
      .bind (span_raises hP _ _) fun _ =>
        .bind (onMemory_raises (Memory.copyFrom_raises hP.toOfRanges _ _ _ _)) fun _ =>
          .bind (onRun_raises _) fun _ => .pure _)
  | sload =>
    exact alone_raises (.bind (stack_raises hP .peek) fun _ => .bind (readRun_raises _) fun _ =>
      .bind (stack_raises hP (.poke _)) fun _ => .bind (onRun_raises _) fun _ => .pure _)
  | sstore =>
    exact alone_raises (.bind (stack_raises hP (.popN 2)) fun ⟨⟨[_, _]⟩, _⟩ =>
      .bind (note_raises _) fun _ => .bind (onRun_raises _) fun _ => .bind (onRun_raises _)
        fun _ => .pure _)
  | invalid => exact alone_raises (.bind (onRun_raises _) fun _ => .pure _)
  | selfDestruct =>
    exact alone_raises (.bind (stack_raises hP .pop) fun _ => .bind (readRun_raises _) fun _ =>
      .bind (onRun_raises _) fun _ => .bind (onRun_raises _) fun _ => .bind (onRun_raises _)
        fun _ => .bind (onRun_raises _) fun _ => .bind (note_raises _) fun _ => .pure _)
  | ret | revert => exact alone_raises (giveBack_raises hP)
  | call kind => exact call_raises hP kind
  | create =>
    exact .bind (stack_raises hP (.popN 3)) fun ⟨⟨[_, _, _]⟩, _⟩ => askCreate_raises hP _ _ _ _
  | saltedCreate =>
    exact .bind (stack_raises hP (.popN 4)) fun ⟨⟨[_, _, _, _]⟩, _⟩ => askCreate_raises hP _ _ _ _

theorem resolve_raises (resolution : Resolution) :
    (resolve resolution : Action (Machine σ) Control).Raises P := by
  refine .bind (readRun_raises _) fun aborted => ?_
  split
  · exact .pure _
  cases resolution with
  | create =>
    exact .bind (readRun_raises _) fun _ => .bind (readRun_raises _) fun _ =>
      .bind (note_raises _) fun _ => pushWord_raises hP _
  | call op output =>
    refine .bind (readRun_raises _) fun _ => .bind (readRun_raises _) fun _ => ?_
    split
    · exact .bind (note_raises _) fun _ =>
        .bind (onMemory_raises (Memory.set_raises hP.toOfRanges _ _ _)) fun _ =>
          pushWord_raises hP _
    · exact .bind (note_raises _) fun _ => .bind (onRun_raises _) fun _ => .pure _
    · exact .bind (note_raises _) fun _ => .bind (onRun_raises _) fun _ => .pure _

end Execute

namespace Interpreter

open Machine

variable {setup : Setup} {host : Host σ} {inv : Invocation}

theorem advance_raises {opcode : UInt8}
    (hs : (Execute.start setup inv (Instruction.decode opcode) : Action (Machine σ) _).Raises P)
    (hh : ∀ request, (host inv request).Raises P)
    (hr : ∀ resolution, (Execute.resolve resolution : Action (Machine σ) _).Raises P) :
    (advance setup host inv opcode).Raises P := by
  have hmove (control : Control) :
      (moveOn inv opcode control : Action (Machine σ) Bool).Raises P := by
    refine .of_ok fun m => ?_
    obtain ⟨goesOn, m', hm, -⟩ := moveOn_cases inv opcode control m
    exact ⟨goesOn, m', hm⟩
  rw [advance_eq]
  refine .bind (note_raises _) fun _ => .bind (.bind hs fun progress => ?_) hmove
  cases progress with
  | done control => exact .pure _
  | ask request resolution => exact .bind (onWorld_raises (hh request)) fun _ => hr resolution

/-- Beyond what its instructions raise, a frame raises that its budget is used up. -/
theorem runFor_raises (ha : ∀ opcode, (advance setup host inv opcode).Raises P)
    (hl : P (.stepLimitExceeded setup.settings.maxSteps)) (budget : Nat) :
    (runFor setup host inv budget).Raises P := by
  have hfetch : (fetch inv : Action (Machine σ) _).Raises P := .of_ok fun _ => ⟨_, _, rfl⟩
  induction budget with
  | zero =>
    refine .bind hfetch fun opcode => ?_
    split
    · exact .throw hl
    · exact .pure _
  | succ budget ih =>
    refine .bind hfetch fun opcode => ?_
    cases opcode with
    | none => exact .pure _
    | some opcode =>
      refine .bind (ha opcode) fun goesOn => ?_
      split
      · exact ih
      · exact .pure _

end Interpreter

end SpeculativeEvm
