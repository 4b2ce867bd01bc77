import SpeculativeEvm.Execute
import SpeculativeEvm.Proofs.Keeps

/-! What instructions are made of. All of them are sequences of a few parts: stack operations, work
on the memory, moves of the counter, changes of the run, notes and, for two of them, the output. A
preorder that the parts keep is kept by every instruction. -/

namespace SpeculativeEvm

variable {σ α : Type}

inductive Stack.IsOp : {α : Type} → Action Stack α → Prop
  | push (w : Word) : IsOp (push w)
  | pop : IsOp pop
  | popN (n : Nat) : IsOp (popN n)
  | peek : IsOp peek
  | poke (w : Word) : IsOp (poke w)
  | swap (n : Nat) : IsOp (swap n)
  | dup (n : Nat) : IsOp (dup n)

namespace Instruction

/-- Whether an instruction works on the stack, the memory and the counter alone. -/
def isLocal : Instruction → Bool
  | account _ | selfBalance | extCodeCopy | sload | sstore | create | saltedCreate | call _ => false
  | ret | revert | invalid | selfDestruct => false
  | _ => true

def movesCounter : Instruction → Bool
  | push _ => true
  | _ => false

def givesBack : Instruction → Bool
  | ret | revert => true
  | _ => false

end Instruction

structure Machine.Parts (R : Machine σ → Machine σ → Prop) : Prop
    extends IsPreorder (Machine σ) R where
  onStack {α : Type} {act : Action Stack α} : Stack.IsOp act → (onStack act).Keeps R
  onMemory {α : Type} (act : Action Memory α) : (onMemory act).Keeps R
  setPc (n : Nat) : (setPc n).Keeps R

structure Machine.DataParts (R : Machine σ → Machine σ → Prop) : Prop
    extends IsPreorder (Machine σ) R where
  onStack {α : Type} {act : Action Stack α} : Stack.IsOp act → (onStack act).Keeps R
  onMemory {α : Type} (act : Action Memory α) : (onMemory act).Keeps R

theorem Machine.Parts.data {R : Machine σ → Machine σ → Prop} (h : Parts R) : DataParts R :=
  ⟨h.toIsPreorder, h.onStack, h.onMemory⟩

namespace Execute

open Machine

variable {R : Machine σ → Machine σ → Prop} (h : DataParts R)

include h

theorem check_keeps (r : Except Fault α) : (check r).Keeps R := by
  have := h.toIsPreorder
  intro m
  rw [final_check]
  exact refl_of R m

theorem readRun_keeps (f : Speculation → α) : (readRun f).Keeps R := by
  have := h.toIsPreorder
  exact fun m => refl_of R m

theorem pc_keeps : pc.Keeps R := by
  have := h.toIsPreorder
  exact fun m => refl_of R m

theorem pushWord_keeps (w : Word) : (pushWord w).Keeps R := by
  have := h.toIsPreorder
  exact .bind (h.onStack (.push w)) fun _ => .pure _

theorem drop_keeps (n : Nat) : (drop n).Keeps R := by
  have := h.toIsPreorder
  induction n with
  | zero => exact .pure _
  | succ n ih => exact .bind (.map (h.onStack .pop)) fun _ => ih

theorem alone_keeps {act : Action (Machine σ) Control} (ha : act.Keeps R) :
    (alone act).Keeps R := by
  have := h.toIsPreorder
  exact .bind ha fun _ => .pure _

section Run

variable (hr : ∀ f, (onRun f).Keeps R) (hn : ∀ event, (note event).Keeps R)

include hr hn

theorem beginRequest_keeps (op : String) (target : Option Address) :
    (beginRequest op target).Keeps R := by
  have := h.toIsPreorder
  exact .bind (hr _) fun _ => hn _

theorem askCall_keeps (kind : CallKind) (target : Address) (input output : Except Fault Span)
    (request : Bytes → Request) : (askCall kind target input output request).Keeps R := by
  have := h.toIsPreorder
  exact .bind (check_keeps h _) fun _ => .bind (check_keeps h _) fun _ =>
    .bind (beginRequest_keeps h hr hn _ _) fun _ => .bind (h.onMemory _) fun _ => .pure _

theorem call_keeps (kind : CallKind) : (call kind).Keeps R := by
  have := h.toIsPreorder
  cases kind with
  | call | callCode =>
    exact .bind (h.onStack (.popN 7)) fun ⟨⟨[_, _, _, _, _, _, _]⟩, _⟩ =>
      askCall_keeps h hr hn _ _ _ _ _
  | delegateCall | staticCall =>
    exact .bind (h.onStack (.popN 6)) fun ⟨⟨[_, _, _, _, _, _]⟩, _⟩ =>
      askCall_keeps h hr hn _ _ _ _ _

theorem askCreate_keeps (op : String) (init : Except Fault Span) (request : Bytes → Request) :
    (askCreate op init request).Keeps R := by
  have := h.toIsPreorder
  exact .bind (check_keeps h _) fun _ => .bind (h.onMemory _) fun _ =>
    .bind (beginRequest_keeps h hr hn _ _) fun _ => .pure _

end Run

theorem giveBack_keeps (hr : ∀ f, (onRun f).Keeps R) (ho : ∀ output, (setOutput output).Keeps R) :
    giveBack.Keeps R := by
  have := h.toIsPreorder
  refine .bind (h.onStack (.popN 2)) fun ⟨⟨[_, _]⟩, _⟩ => .bind (check_keeps h _) fun _ =>
    .bind (h.onMemory _) fun output => ?_
  split
  · exact .bind (hr _) fun _ => .bind (ho _) fun _ => .pure _
  · exact .bind (ho _) fun _ => .pure _

/-- Every instruction keeps what its parts keep. -/
theorem start_keeps_of_data (setup : Setup) (inv : Invocation) {i : Instruction}
    (hp : i.movesCounter = true → ∀ n, (setPc n).Keeps R)
    (hr : i.isLocal = false → ∀ f, (onRun f).Keeps R)
    (hn : i.isLocal = false → ∀ event, (note event).Keeps R)
    (ho : i.givesBack = true → ∀ output, (setOutput output).Keeps R) :
    (start setup inv i).Keeps R := by
  have := h.toIsPreorder
  cases i with
  | stop | jumpDest => exact .pure _
  | undefined byte => exact .throw _
  | unary | blockHash | callDataLoad =>
    exact alone_keeps h (.bind (h.onStack .peek) fun _ => .bind (h.onStack (.poke _)) fun _ =>
      .pure _)
  | binary =>
    exact alone_keeps h (.bind (h.onStack .pop) fun _ => .bind (h.onStack .peek) fun _ =>
      .bind (h.onStack (.poke _)) fun _ => .pure _)
  | ternary =>
    exact alone_keeps h (.bind (h.onStack .pop) fun _ => .bind (h.onStack .pop) fun _ =>
      .bind (h.onStack .peek) fun _ => .bind (h.onStack (.poke _)) fun _ => .pure _)
  | keccak =>
    exact alone_keeps h (.bind (h.onStack .pop) fun _ => .bind (h.onStack .peek) fun _ =>
      .bind (check_keeps h _) fun _ => .bind (h.onMemory _) fun _ =>
      .bind (h.onStack (.poke _)) fun _ => .pure _)
  | quantity =>
    exact alone_keeps h (.bind .get fun _ => .bind (check_keeps h _) fun _ => pushWord_keeps h _)
  | copy =>
    exact alone_keeps h (.bind (h.onStack (.popN 3)) fun ⟨⟨[_, _, _]⟩, _⟩ =>
      .bind (check_keeps h _) fun _ => .bind (h.onMemory _) fun _ => .pure _)
  | returnDataCopy => exact alone_keeps h (.bind (.map (h.onStack (.popN 3))) fun _ => .pure _)
  | pop => exact alone_keeps h (.bind (.map (h.onStack .pop)) fun _ => .pure _)
  | mload =>
    exact alone_keeps h (.bind (h.onStack .peek) fun _ => .bind (check_keeps h _) fun _ =>
      .bind (h.onMemory _) fun _ => .bind (h.onStack (.poke _)) fun _ => .pure _)
  | mstore | mstore8 =>
    exact alone_keeps h (.bind (h.onStack (.popN 2)) fun ⟨⟨[_, _]⟩, _⟩ =>
      .bind (check_keeps h _) fun _ => .bind (h.onMemory _) fun _ => .pure _)
  | jump => exact alone_keeps h (.bind (h.onStack .pop) fun _ => .pure _)
  | jumpIf => exact alone_keeps h (.bind (h.onStack (.popN 2)) fun ⟨⟨[_, _]⟩, _⟩ => .pure _)
  | push =>
    exact alone_keeps h (.bind (pc_keeps h) fun _ => .bind (h.onStack (.push _)) fun _ =>
      .bind (hp rfl _) fun _ => .pure _)
  | dup place => exact alone_keeps h (.bind (h.onStack (.dup place)) fun _ => .pure _)
  | swap place => exact alone_keeps h (.bind (h.onStack (.swap place)) fun _ => .pure _)
  | log topics => exact alone_keeps h (.bind (drop_keeps h _) fun _ => .pure _)
  | account =>
    exact alone_keeps h (.bind (h.onStack .peek) fun _ => .bind .get fun _ =>
      .bind (h.onStack (.poke _)) fun _ => .bind (hr rfl _) fun _ => .pure _)
  | selfBalance =>
    exact alone_keeps h (.bind (readRun_keeps h _) fun _ => .bind (hr rfl _) fun _ =>
      pushWord_keeps h _)
  | extCodeCopy =>
    exact alone_keeps h (.bind (h.onStack (.popN 4)) fun ⟨⟨[_, _, _, _]⟩, _⟩ =>
      .bind (check_keeps h _) fun _ => .bind (h.onMemory _) fun _ => .bind (hr rfl _) fun _ =>
      .pure _)
  | sload =>
    exact alone_keeps h (.bind (h.onStack .peek) fun _ => .bind (readRun_keeps h _) fun _ =>
      .bind (h.onStack (.poke _)) fun _ => .bind (hr rfl _) fun _ => .pure _)
  | sstore =>
    exact alone_keeps h (.bind (h.onStack (.popN 2)) fun ⟨⟨[_, _]⟩, _⟩ => .bind (hn rfl _) fun _ =>
      .bind (hr rfl _) fun _ => .bind (hr rfl _) fun _ => .pure _)
  | invalid => exact alone_keeps h (.bind (hr rfl _) fun _ => .pure _)
  | selfDestruct =>
    exact alone_keeps h (.bind (h.onStack .pop) fun _ => .bind (readRun_keeps h _) fun _ =>
      .bind (hr rfl _) fun _ => .bind (hr rfl _) fun _ => .bind (hr rfl _) fun _ =>
      .bind (hr rfl _) fun _ => .bind (hn rfl _) fun _ => .pure _)
  | ret | revert => exact alone_keeps h (giveBack_keeps h (hr rfl) (ho rfl))
  | call kind => exact call_keeps h (hr rfl) (hn rfl) kind
  | create =>
    exact .bind (h.onStack (.popN 3)) fun ⟨⟨[_, _, _]⟩, _⟩ =>
      askCreate_keeps h (hr rfl) (hn rfl) _ _ _
  | saltedCreate =>
    exact .bind (h.onStack (.popN 4)) fun ⟨⟨[_, _, _, _]⟩, _⟩ =>
      askCreate_keeps h (hr rfl) (hn rfl) _ _ _

omit h in
theorem start_keeps (h : Parts R) (setup : Setup) (inv : Invocation) {i : Instruction}
    (hr : i.isLocal = false → ∀ f, (onRun f).Keeps R)
    (hn : i.isLocal = false → ∀ event, (note event).Keeps R)
    (ho : i.givesBack = true → ∀ output, (setOutput output).Keeps R) :
    (start setup inv i).Keeps R :=
  start_keeps_of_data h.data setup inv (fun _ => h.setPc) hr hn ho

end Execute

structure Machine.LocalChange (m m' : Machine σ) : Prop where
  world : m'.world = m.world
  output : m'.frame.output = m.frame.output

namespace Machine

theorem LocalChange.parts : Parts (LocalChange (σ := σ)) where
  refl _ := ⟨rfl, rfl⟩
  trans _ _ _ h h' := ⟨h'.world.trans h.world, h'.output.trans h.output⟩
  onStack {α act} _ m := by
    rw [final_onStack]
    exact ⟨rfl, rfl⟩
  onMemory act m := by
    rw [final_onMemory]
    exact ⟨rfl, rfl⟩
  setPc _ _ := ⟨rfl, rfl⟩

/-- A preorder that local changes are part of is kept by the parts of local instructions. -/
theorem Parts.of_localChange {R : Machine σ → Machine σ → Prop} [IsPreorder (Machine σ) R]
    (h : ∀ {m m' : Machine σ}, LocalChange m m' → R m m') : Parts R where
  toIsPreorder := inferInstance
  onStack ha := (LocalChange.parts.onStack ha).mono h
  onMemory act := (LocalChange.parts.onMemory act).mono h
  setPc n := (LocalChange.parts.setPc n).mono h

end Machine

/-- Local instructions read no account, touch nothing of the world and hand back no output. -/
theorem Execute.start_localChange (setup : Setup) (inv : Invocation) {i : Instruction}
    (hi : i.isLocal) :
    (start setup inv i : Action (Machine σ) Progress).Keeps Machine.LocalChange := by
  refine start_keeps Machine.LocalChange.parts setup inv (fun h => ?_) (fun h => ?_) fun h => ?_
  · rw [hi] at h
    cases h
  · rw [hi] at h
    cases h
  · cases i with
    | ret | revert => cases hi
    | _ => cases h

end SpeculativeEvm
