import SpeculativeEvm.Proofs.Execute.Counter
import SpeculativeEvm.Proofs.PaddedRead

/-! Reading the code behind an instruction. A push of `n` bytes takes the part of the code that a
copy of `n` bytes from the same place takes, with zeros past the end of the code, as the low bytes
of a word; then the next instruction is fetched behind it. -/

namespace SpeculativeEvm

/-- A word of few bytes has them at its low end. -/
theorem Word.toBytes_ofBytes {bytes : Bytes} (h : bytes.size ≤ 32) :
    (Word.ofBytes bytes).toBytes = Array.replicate (32 - bytes.size) 0 ++ bytes := by
  have hnumber := Bytes.toNat_replicate_append (32 - bytes.size) bytes
  generalize hpadded : (Array.replicate (32 - bytes.size) 0 ++ bytes : Bytes) = padded at hnumber ⊢
  have hsize : padded.size = 32 := by
    rw [← hpadded, Array.size_append, Array.size_replicate]
    omega
  have hlt : bytes.toNat < 2 ^ 256 := by
    have hpadded := padded.toNat_lt
    rwa [hnumber, hsize] at hpadded
  rw [toBytes, ofBytes, BitVec.toNat_ofNat, Nat.mod_eq_of_lt hlt, ← hnumber, ← hsize,
    Bytes.ofNat_toNat]

namespace Execute

variable {code : Bytes} {pc size : Nat}

theorem toBytes_immediate (hsize : size ≤ 32) : (immediate code pc size).toBytes =
    Array.replicate (32 - size) 0 ++ code.window (pc + 1) size := by
  rw [immediate, Word.toBytes_ofBytes (by rwa [Bytes.size_window]), Bytes.size_window]

theorem at0_immediate (hsize : size ≤ 32) {i : Nat} (hi : i < 32) :
    (immediate code pc size).toBytes.at0 i =
      if i < 32 - size then 0 else code.at0 (pc + 1 + (i - (32 - size))) := by
  rw [toBytes_immediate hsize, Bytes.at0_append, Array.size_replicate, Bytes.at0_replicate]
  split
  · rfl
  · rw [Bytes.at0_window, if_pos (by omega)]

theorem window_immediate (hsize : size ≤ 32) :
    (immediate code pc size).toBytes.window (32 - size) size = code.window (pc + 1) size := by
  refine Bytes.ext_at0 (by simp) fun i hi => ?_
  rw [Bytes.size_window] at hi
  rw [Bytes.at0_window, if_pos hi, at0_immediate hsize (by omega), if_neg (by omega),
    Bytes.at0_window, if_pos hi]
  congr 2
  omega

end Execute

namespace Instruction

open Execute Interpreter Machine

/-- The word is what stands in the code behind `pc`, `size` bytes of it. Reading it never leaves the
code; it is read by a push, which then stands on its last byte, and by a copy. -/
structure PushReads (setup : Setup) (inv : Invocation) (pc size : Nat) (w : Word) : Prop where
  low : ∀ i < 32, w.toBytes.at0 i =
    if i < 32 - size then 0 else inv.code.bytes.at0 (pc + 1 + (i - (32 - size)))
  padded : Checked.paddedSlice inv.code.bytes (pc + 1) size =
    some (w.toBytes.window (32 - size) size)
  inRange : Checked.immediate inv.code.bytes pc size = some w
  pushed {σ : Type} (host : Host σ) (m : Machine σ) (hpc : m.frame.pc = pc)
    (hroom : m.frame.stack.depth < maxStackDepth) :
    execute setup host inv (push size) m =
      .ok .next ⟨{ m.frame with stack := ⟨w :: m.frame.stack.words⟩, pc := pc + size }, m.world⟩
  copied {σ : Type} (host : Host σ) (m : Machine σ) (target : Word) (below : List Word)
    (hroom : (⟨target.toNat, size⟩ : Span).Within
      (min m.frame.memory.limit (addressSpace - 32))) :
    ∃ memory, execute setup host inv (copy .code)
        (m.withWords ([target, BitVec.ofNat 256 (pc + 1), BitVec.ofNat 256 size] ++ below)) =
          .ok .next ⟨{ m.frame with stack := ⟨below⟩, memory }, m.world⟩ ∧
      ∀ i < size, memory.data.at0 (target.toNat + i) = w.toBytes.at0 (32 - size + i)
  fetched {σ : Type} (host : Host σ) (m : Machine σ) (hpc : m.frame.pc = pc)
    (hroom : m.frame.stack.depth < maxStackDepth) (hrun : m.world.run.outcome.aborted = false) :
    ∃ m', advance setup host inv (UInt8.ofNat (0x5f + size)) m = .ok true m' ∧
      m'.frame = { m.frame with stack := ⟨w :: m.frame.stack.words⟩, pc := pc + 1 + size } ∧
      fetch inv m' = .ok inv.code.bytes[pc + 1 + size]? m'

section Push

variable {σ : Type} (setup : Setup) (host : Host σ) (inv : Invocation) {size : Nat} {m : Machine σ}

theorem execute_push (size : Nat) (hroom : m.frame.stack.depth < maxStackDepth) :
    execute setup host inv (push size) m = .ok .next
      ⟨{ m.frame with
          stack := ⟨immediate inv.code.bytes m.frame.pc size :: m.frame.stack.words⟩
          pc := m.frame.pc + size }, m.world⟩ := by
  have hpush : Stack.push (immediate inv.code.bytes m.frame.pc size) m.frame.stack = .ok ()
      ⟨immediate inv.code.bytes m.frame.pc size :: m.frame.stack.words⟩ := if_pos hroom
  have hpc : Machine.pc m = .ok m.frame.pc m := rfl
  have hstart : start setup inv (push size) = alone (Execute.push (σ := σ) inv size) := rfl
  rw [execute_of_alone hstart, Execute.push, Action.bind_of_ok hpc, onStack_bind, hpush]
  rfl

theorem decode_push (hsize : size ≤ 32) : decode (UInt8.ofNat (0x5f + size)) = push size := by
  have hall : ∀ n : Fin 33, decode (UInt8.ofNat (0x5f + n)) = push n := by decide
  exact hall ⟨size, Nat.lt_succ_of_le hsize⟩

/-- The next instruction is fetched behind the immediate. -/
theorem advance_push (hsize : size ≤ 32) (hroom : m.frame.stack.depth < maxStackDepth)
    (hrun : m.world.run.outcome.aborted = false) :
    ∃ m', advance setup host inv (UInt8.ofNat (0x5f + size)) m = .ok true m' ∧
      m'.frame = { m.frame with
        stack := ⟨immediate inv.code.bytes m.frame.pc size :: m.frame.stack.words⟩
        pc := m.frame.pc + 1 + size } ∧
      fetch inv m' = .ok inv.code.bytes[m.frame.pc + 1 + size]? m' := by
  rw [advance_eq, note_bind, decode_push hsize]
  generalize m.world.journal.note _ = journal
  have hpush := execute_push setup host inv (m := ⟨m.frame, { m.world with journal }⟩) size hroom
  rw [Action.bind_of_ok hpush, moveOn, readRun_bind, Nat.add_right_comm m.frame.pc]
  simp only [hrun]
  exact ⟨_, rfl, rfl, rfl⟩

/-- A copy of the code from a position inside it is that of the position's number. -/
theorem codeCopy_copies {start : Nat} (h : inv.code.bytes.size < addressSpace)
    (hstart : start ≤ inv.code.bytes.size) (hsize : size ≤ 32) (target : Word) :
    (copy .code).Copies setup inv [target, BitVec.ofNat 256 start, BitVec.ofNat 256 size]
      inv.code.bytes.at0 target.toNat start size id := by
  have hspace : addressSpace < 2 ^ 256 := by decide
  have hcopies : (copy .code).Copies setup inv _ _ _ _ _ _ :=
    copy_copies target (BitVec.ofNat 256 start) (BitVec.ofNat 256 size) .code h
  rwa [BitVec.toNat_ofNat, BitVec.toNat_ofNat, Nat.mod_eq_of_lt (by omega),
    Nat.mod_eq_of_lt (by omega)] at hcopies

end Push

/-- A push reads the code the same way as a copy of the code does, and the next instruction is
fetched behind what it has read. -/
theorem push_reads_code (setup : Setup) (inv : Invocation) {pc size : Nat}
    (hcode : inv.code.bytes.Allocatable) (hpc : pc < inv.code.bytes.size) (hsize : size ≤ 32) :
    PushReads setup inv pc size (immediate inv.code.bytes pc size) where
  low _ := at0_immediate hsize
  padded := by rw [Checked.paddedSlice_eq hcode.size_lt, window_immediate hsize]
  inRange := Checked.immediate_eq hpc hcode.room hsize
  pushed host m hm hroom := by
    subst hm
    exact execute_push setup host inv size hroom
  copied host m target below hroom := by
    obtain ⟨memory, hcopy, hread⟩ :=
      (codeCopy_copies setup inv hcode.size_lt hpc hsize target).written host m below hroom
    refine ⟨memory, hcopy, ?_⟩
    intro i hi
    rw [hread, if_pos (by omega), at0_immediate hsize (by omega), if_neg (by omega)]
    congr 1
    omega
  fetched host m hm hroom hrun := by
    subst hm
    exact advance_push setup host inv hsize hroom hrun

def cutShort : Invocation := { jumpingInside with code := .ofBytes #[0x61, 0xff] }

/-- The code ends within the immediate, and a zero stands for the byte that is missing. -/
theorem cutShort_pads : cutShort.code.bytes.Allocatable ∧ 0 < cutShort.code.bytes.size ∧ 2 ≤ 32 ∧
    PushReads block300 cutShort 0 2 0xff00 := by
  have hcode : cutShort.code.bytes.Allocatable := by decide
  have hpc : 0 < cutShort.code.bytes.size := by decide
  have hread : immediate cutShort.code.bytes 0 2 = 0xff00 := by decide +kernel
  exact ⟨hcode, hpc, by decide, hread ▸ push_reads_code block300 cutShort hcode hpc (by decide)⟩

end Instruction

end SpeculativeEvm
