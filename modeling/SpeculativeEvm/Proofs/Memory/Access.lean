import SpeculativeEvm.Proofs.Checked.Instruction
import SpeculativeEvm.Proofs.Execute.StackUse
import SpeculativeEvm.Proofs.Fetch
import SpeculativeEvm.Proofs.Memory.Image

/-! Which ranges of memory the instructions accept. Offset and size of a range are 256-bit operands,
and on their way to the limit they are narrowed to 64 bits and added up there, in an order that is
not the same for all instructions. What comes of it is that of the numbers themselves: a range is
accepted if it is empty or ends within the limit. -/

namespace SpeculativeEvm

variable {σ α β : Type}

namespace Action

variable {x : Action σ α} {f : α → Action σ β} {s t : σ} {e : Fault}

def fault? (x : Action σ α) (s : σ) : Option Fault :=
  match x s with
  | .ok .. => none
  | .error e _ => some e

theorem fault?_eq_none_iff : x.fault? s = none ↔ ∃ a t, x s = .ok a t := by
  unfold fault?
  cases x s with
  | ok => simp
  | error => simp

theorem fault?_eq_some_iff : x.fault? s = some e ↔ ∃ t, x s = .error e t := by
  unfold fault?
  cases x s with
  | ok => simp
  | error => simp

theorem fault?_bind_of_ok {a : α} (h : x s = .ok a t) : (x >>= f).fault? s = (f a).fault? t := by
  rw [fault?, bind_of_ok h, fault?]

end Action

open SpeculativeEvm.Action (fault?)

namespace Memory

/-- Why a range is refused, if it is: an empty one never is. -/
def rangeFault? (limit offset size : Nat) : Option Fault :=
  if size = 0 then none else refusal limit offset size

theorem rangeFault?_of_unaddressed {limit offset size : Nat} (hz : size ≠ 0)
    (h : addressSpace ≤ offset + size) :
    rangeFault? limit offset size = some .invalidMemoryAccess := by
  rw [rangeFault?, if_neg hz, refusal, if_pos h]

theorem fault?_of_worked {x : Action Memory α} {m m' : Memory} {offset size : Nat}
    (h : Worked offset size m m' (x m)) : x.fault? m = rangeFault? m.limit offset size := by
  unfold fault? rangeFault?
  generalize x m = r at h ⊢
  cases h with
  | empty hz => rw [if_pos hz]
  | refused hz hr => rw [if_neg hz, hr]
  | done hz hr => rw [if_neg hz, hr]

variable (m : Memory) (offset size : Nat)

theorem fault?_get : (get offset size).fault? m = rangeFault? m.limit offset size :=
  fault?_of_worked (m.get_worked offset size)

theorem fault?_set (value : Bytes) :
    (set offset size value).fault? m = rangeFault? m.limit offset size :=
  fault?_of_worked (m.set_worked offset size value)

theorem fault?_copyFrom (source : Bytes) (start : Nat) :
    (copyFrom offset size source start).fault? m = rangeFault? m.limit offset size :=
  fault?_of_worked (m.copyFrom_worked offset size source start)

theorem fault?_load : (load offset).fault? m = rangeFault? m.limit offset 32 := by
  rw [fault?, load_apply, rangeFault?, if_neg (by decide)]
  cases refusal m.limit offset 32 <;> rfl

end Memory

namespace Machine

variable {m : Machine σ}

/-- What follows an access to memory does not fault, so the fault is that of the access. -/
theorem fault?_onMemory_bind {act : Action Memory α} {f : α → Action (Machine σ) β}
    (hf : ∀ a memory, (f a).fault? ⟨{ m.frame with memory }, m.world⟩ = none) :
    (onMemory act >>= f).fault? m = act.fault? m.frame.memory := by
  unfold fault?
  rw [onMemory_bind]
  cases act m.frame.memory with
  | ok a memory => exact hf a memory
  | error => rfl

end Machine

namespace Execute

open Machine Memory

variable {m : Machine σ} {limit : Nat}

theorem fault?_alone (act : Action (Machine σ) Control) :
    (alone act).fault? m = act.fault? m := by
  unfold fault? alone
  rw [Action.bind_apply]
  cases act m <;> rfl

/-- An access at an offset that must be an index faults like that at the offset itself. -/
theorem fault?_index_bind {w : Word} {size : Nat} (hz : size ≠ 0)
    {f : Nat → Action (Machine σ) α} (hf : ∀ n, (f n).fault? m = rangeFault? limit n size) :
    (check (indexOf w) >>= f).fault? m = rangeFault? limit w.toNat size := by
  rw [indexOf_eq]
  by_cases h : w.toNat < addressSpace
  · rw [if_pos h]
    exact hf w.toNat
  · rw [if_neg h, rangeFault?_of_unaddressed hz (by omega)]
    rfl

/-- An access to a range that must be one of indices faults like that to the range itself. -/
theorem fault?_span_bind {offset size : Word} {f : Span → Action (Machine σ) α}
    (hf : ∀ r : Span, (f r).fault? m = rangeFault? limit r.offset r.size) :
    (check (spanOf offset size) >>= f).fault? m = rangeFault? limit offset.toNat size.toNat := by
  obtain ⟨hspan, hz, hpast⟩ | ⟨hspan, hz⟩ | hspan := spanOf_cases offset size
  · rw [hspan, rangeFault?_of_unaddressed hz hpast]
    rfl
  · rw [hspan, hz, rangeFault?, if_pos rfl]
    exact hf ⟨0, 0⟩
  · rw [hspan]
    exact hf ⟨offset.toNat, size.toNat⟩

end Execute

namespace Instruction

/-- Whether the instruction reads or writes one range of memory, which its operands give. Calls have
two, and so are left out. -/
def accessesRange : Instruction → Bool
  | mload | mstore | mstore8 | keccak | copy _ | extCodeCopy | ret | revert => true
  | create | saltedCreate => true
  | _ => false

/-- The range of memory that an instruction accesses, as the numbers of its operands. The operands
are on the stack, the top one first. -/
inductive Accesses : Instruction → List Word → Span → Prop
  | mload (o : Word) (rest : List Word) : Accesses mload (o :: rest) ⟨o.toNat, 32⟩
  | mstore (o w : Word) (rest : List Word) : Accesses mstore (o :: w :: rest) ⟨o.toNat, 32⟩
  | mstore8 (o w : Word) (rest : List Word) : Accesses mstore8 (o :: w :: rest) ⟨o.toNat, 1⟩
  | keccak (o n : Word) (rest : List Word) : Accesses keccak (o :: n :: rest) ⟨o.toNat, n.toNat⟩
  | copy (source : FrameData) (o start n : Word) (rest : List Word) :
    Accesses (copy source) (o :: start :: n :: rest) ⟨o.toNat, n.toNat⟩
  | extCodeCopy (account o start n : Word) (rest : List Word) :
    Accesses extCodeCopy (account :: o :: start :: n :: rest) ⟨o.toNat, n.toNat⟩
  | ret (o n : Word) (rest : List Word) : Accesses ret (o :: n :: rest) ⟨o.toNat, n.toNat⟩
  | revert (o n : Word) (rest : List Word) : Accesses revert (o :: n :: rest) ⟨o.toNat, n.toNat⟩
  | create (value o n : Word) (rest : List Word) :
    Accesses create (value :: o :: n :: rest) ⟨o.toNat, n.toNat⟩
  | saltedCreate (value o n salt : Word) (rest : List Word) :
    Accesses saltedCreate (value :: o :: n :: salt :: rest) ⟨o.toNat, n.toNat⟩

/-- With enough operands there is a range. -/
theorem exists_accesses {i : Instruction} {words : List Word} (hi : i.accessesRange = true)
    (h : i.takes ≤ words.length) : ∃ r, i.Accesses words r := by
  cases i with
  | mload => match words with | o :: rest => exact ⟨_, .mload o rest⟩
  | mstore => match words with | o :: w :: rest => exact ⟨_, .mstore o w rest⟩
  | mstore8 => match words with | o :: w :: rest => exact ⟨_, .mstore8 o w rest⟩
  | keccak => match words with | o :: n :: rest => exact ⟨_, .keccak o n rest⟩
  | copy source =>
    match words with | o :: start :: n :: rest => exact ⟨_, .copy source o start n rest⟩
  | extCodeCopy =>
    match words with | a :: o :: start :: n :: rest => exact ⟨_, .extCodeCopy a o start n rest⟩
  | ret => match words with | o :: n :: rest => exact ⟨_, .ret o n rest⟩
  | revert => match words with | o :: n :: rest => exact ⟨_, .revert o n rest⟩
  | create => match words with | v :: o :: n :: rest => exact ⟨_, .create v o n rest⟩
  | saltedCreate =>
    match words with | v :: o :: n :: salt :: rest => exact ⟨_, .saltedCreate v o n salt rest⟩
  | _ => cases hi

end Instruction

namespace Execute

open Machine Memory SpeculativeEvm.Action

/-- As far as it comes by itself, an instruction faults just as its range does. -/
theorem fault?_start (setup : Setup) (inv : Invocation) {i : Instruction} {m : Machine σ} {r : Span}
    (h : i.Accesses m.frame.stack.words r) :
    (start setup inv i).fault? m = rangeFault? m.frame.memory.limit r.offset r.size := by
  obtain ⟨⟨pc, ⟨words⟩, memory, output⟩, world⟩ := m
  change i.Accesses words r at h
  -- the operands are there, so what comes before the range and after it does not fault
  cases h with
  | mload o rest =>
    refine (fault?_alone _).trans ((fault?_bind_of_ok rfl).trans ?_)
    refine fault?_index_bind (Nat.succ_ne_zero _) fun n => ?_
    exact (fault?_onMemory_bind fun _ _ => rfl).trans (fault?_load memory n)
  | mstore o w rest =>
    refine (fault?_alone _).trans ((fault?_bind_of_ok rfl).trans ?_)
    refine fault?_index_bind (Nat.succ_ne_zero _) fun n => ?_
    exact (fault?_onMemory_bind fun _ _ => rfl).trans (fault?_set memory n 32 w.toBytes)
  | mstore8 o w rest =>
    refine (fault?_alone _).trans ((fault?_bind_of_ok rfl).trans ?_)
    refine fault?_index_bind (Nat.succ_ne_zero _) fun n => ?_
    exact (fault?_onMemory_bind fun _ _ => rfl).trans (fault?_set memory n 1 #[w.lowByte])
  | keccak o n rest =>
    refine (fault?_alone _).trans ((fault?_bind_of_ok rfl).trans ((fault?_bind_of_ok rfl).trans ?_))
    refine fault?_span_bind fun r => ?_
    exact (fault?_onMemory_bind fun _ _ => rfl).trans (fault?_get memory r.offset r.size)
  | copy source o first n rest =>
    refine (fault?_alone _).trans ((fault?_bind_of_ok rfl).trans ?_)
    refine fault?_span_bind fun r => ?_
    exact (fault?_onMemory_bind fun _ _ => rfl).trans (fault?_copyFrom memory r.offset r.size _ _)
  | extCodeCopy a o first n rest =>
    refine (fault?_alone _).trans ((fault?_bind_of_ok rfl).trans ?_)
    refine fault?_span_bind fun r => ?_
    exact (fault?_onMemory_bind fun _ _ => rfl).trans (fault?_copyFrom memory r.offset r.size _ _)
  | ret o n rest | revert o n rest =>
    refine (fault?_alone _).trans ((fault?_bind_of_ok rfl).trans ?_)
    refine fault?_span_bind fun r => ?_
    refine (fault?_onMemory_bind fun output _ => ?_).trans (fault?_get memory r.offset r.size)
    dsimp only
    split <;> rfl
  | create v o n rest | saltedCreate v o n salt rest =>
    refine (fault?_bind_of_ok rfl).trans ?_
    refine fault?_span_bind fun r => ?_
    refine (fault?_onMemory_bind fun _ _ => ?_).trans (fault?_get memory r.offset r.size)
    rw [fault?, beginRequest_bind]
    rfl

end Execute

namespace Span

def Within (limit : Nat) (r : Span) : Prop := r.size = 0 ∨ r.offset + r.size ≤ limit

instance (limit : Nat) (r : Span) : Decidable (r.Within limit) :=
  inferInstanceAs (Decidable (r.size = 0 ∨ r.offset + r.size ≤ limit))

def fault (limit : Nat) (r : Span) : Fault :=
  if addressSpace ≤ r.size ∨ addressSpace ≤ r.offset ∨ addressSpace ≤ r.offset + r.size then
    .invalidMemoryAccess
  else .memoryLimitExceeded (r.offset + r.size) limit

variable {limit : Nat} {r : Span}

theorem rangeFault?_of_within (hl : limit ≤ addressSpace - 32) (h : r.Within limit) :
    Memory.rangeFault? limit r.offset r.size = none := by
  unfold Memory.rangeFault?
  by_cases hz : r.size = 0
  · rw [if_pos hz]
  · rw [if_neg hz, Memory.refusal_eq_none_of_le hl (h.resolve_left hz)]

theorem rangeFault?_of_not_within (h : ¬ r.Within limit) :
    Memory.rangeFault? limit r.offset r.size = some (r.fault limit) := by
  obtain ⟨hz, hle⟩ := not_or.1 h
  rw [Memory.rangeFault?, if_neg hz, Memory.refusal, fault]
  by_cases hs : addressSpace ≤ r.offset + r.size
  · rw [if_pos hs, if_pos (.inr (.inr hs))]
  · rw [if_neg hs, if_pos (Nat.lt_of_not_le hle), if_neg (by omega)]

end Span

section Accepted

open Execute SpeculativeEvm.Action

/-- An access is accepted exactly if its range is empty or ends within the limit, and otherwise the
instruction faults with what the range says. Creations go on to ask for a frame then; the others
are done. -/
theorem access_accepted_iff (setup : Setup) (host : Host σ) (inv : Invocation) {i : Instruction}
    {m : Machine σ} (hi : i.accessesRange = true) (hdepth : i.takes ≤ m.frame.stack.depth)
    (hl : m.frame.memory.limit ≤ addressSpace - 32) :
    ∃ r : Span, i.Accesses m.frame.stack.words r ∧
      ((∃ p t, start setup inv i m = .ok p t) ↔ r.Within m.frame.memory.limit) ∧
      (¬ r.Within m.frame.memory.limit →
        ∃ t, execute setup host inv i m = .error (r.fault m.frame.memory.limit) t) ∧
      (i.asksBelow = false →
        ((∃ c t, execute setup host inv i m = .ok c t) ↔ r.Within m.frame.memory.limit)) := by
  obtain ⟨r, hr⟩ := i.exists_accesses hi hdepth
  have hstart := fault?_start setup inv hr
  have hok (h : r.Within m.frame.memory.limit) : ∃ p t, start setup inv i m = .ok p t :=
    fault?_eq_none_iff.1 (hstart.trans (Span.rangeFault?_of_within hl h))
  have herr (h : ¬ r.Within m.frame.memory.limit) :
      ∃ t, start setup inv i m = .error (r.fault m.frame.memory.limit) t :=
    fault?_eq_some_iff.1 (hstart.trans (Span.rangeFault?_of_not_within h))
  refine ⟨r, hr, ⟨fun ⟨p, t, hp⟩ => ?_, hok⟩, fun h => ?_,
    fun hbelow => ⟨fun ⟨c, t, hc⟩ => ?_, fun h => ?_⟩⟩
  · by_contra h
    obtain ⟨t', ht⟩ := herr h
    cases hp.symm.trans ht
  · obtain ⟨t, ht⟩ := herr h
    exact ⟨t, bind_of_error ht⟩
  · by_contra h
    obtain ⟨t', ht⟩ := herr h
    cases hc.symm.trans (bind_of_error ht)
  · obtain ⟨p, t, hp⟩ := hok h
    cases p with
    | done control => exact ⟨control, t, bind_of_ok hp⟩
    | ask request resolution =>
      rw [(start_ask setup inv hp).1.asksBelow] at hbelow
      cases hbelow

def withOperands (words : List Word) : Machine Unit :=
  { freshUnit with frame := { freshUnit.frame with stack := ⟨words⟩ } }

/-- An empty range is accepted at the largest offset. The byte after the last one is not, and the
end of a range does not wrap around. -/
theorem accesses_at_edges :
    (∃ c t, execute bareSetup (fun _ _ => pure ()) jumpingInside .ret
      (withOperands [BitVec.allOnes 256, 0]) = .ok c t) ∧
    (∃ t, execute bareSetup (fun _ _ => pure ()) jumpingInside .mstore8
      (withOperands [64, 7]) = .error (.memoryLimitExceeded 65 64) t) ∧
    ∃ t, execute bareSetup (fun _ _ => pure ()) jumpingInside .create
      (withOperands [0, BitVec.ofNat 256 (addressSpace - 1), 1]) =
        .error .invalidMemoryAccess t := by
  refine ⟨?_, ?_, ?_⟩
  · obtain ⟨r, hr, -, -, hok⟩ := access_accepted_iff bareSetup (fun _ _ => pure ()) jumpingInside
      (i := .ret) (m := withOperands [BitVec.allOnes 256, 0]) rfl (by decide) (by decide)
    cases hr
    exact (hok rfl).2 (.inl rfl)
  · obtain ⟨r, hr, -, herr, -⟩ := access_accepted_iff bareSetup (fun _ _ => pure ()) jumpingInside
      (i := .mstore8) (m := withOperands [64, 7]) rfl (by decide) (by decide)
    cases hr
    exact herr (by decide)
  · obtain ⟨r, hr, -, herr, -⟩ := access_accepted_iff bareSetup (fun _ _ => pure ()) jumpingInside
      (i := .create) (m := withOperands [0, BitVec.ofNat 256 (addressSpace - 1), 1]) rfl
      (by decide) (by decide)
    cases hr
    exact herr (by decide)

end Accepted

end SpeculativeEvm
