import SpeculativeEvm.Proofs.Checked.Bytes
import SpeculativeEvm.Proofs.Execute.Operand
import SpeculativeEvm.Proofs.Memory.Access

/-! Reading at a position that a word gives. The position is narrowed to 64 bits, where it
saturates. No data is as long as that and no block is followed by that many, so what is read is what
stands at the position itself, however large it is. -/

namespace SpeculativeEvm

theorem Word.toNat_saturate (w : Word) : w.saturate.toNat = min w.toNat (addressSpace - 1) := by
  unfold saturate
  by_cases h : w.toNat < addressSpace
  · rw [if_pos h, UInt64.toNat_ofNat_of_lt' h]
    omega
  · rw [if_neg h, UInt64.toNat_ofNat_of_lt' (by decide)]
    omega

theorem Image.at0_slice (image : Image) (offset : Nat) {size i : Nat} (h : i < size) :
    (image.slice offset size).at0 i = image (offset + i) := by
  simp [slice, Bytes.at0, h]

/-- A window at the saturated position is that at the position itself. -/
theorem Bytes.window_saturate {data : Bytes} (h : data.size < addressSpace) (start : Word)
    (size : Nat) : data.window start.saturate.toNat size =
      Image.slice data.at0 start.toNat size := by
  refine ext_at0 (by simp [Image.slice]) fun i hi => ?_
  have hi : i < size := by simpa [Image.slice] using hi
  rw [at0_window, if_pos hi, Image.at0_slice _ _ hi, Word.toNat_saturate]
  by_cases hs : start.toNat < addressSpace
  · rw [Nat.min_eq_left (by omega)]
  · -- both positions lie past the end
    rw [at0_of_size_le (by omega), at0_of_size_le (by omega)]

theorem Block.inHashWindow_saturate (b : Block) (n : Word) :
    b.inHashWindow n.saturate = true ↔
      n.toNat < b.number.toNat ∧ b.number.toNat - n.toNat ≤ 256 := by
  have hlowest : (if b.number < 257 then 0 else b.number - 256).toNat = b.number.toNat - 256 := by
    by_cases h : b.number < 257
    · rw [if_pos h]
      rw [UInt64.lt_iff_toNat_lt] at h
      exact (Nat.sub_eq_zero_of_le (Nat.le_of_lt_succ h)).symm
    · rw [if_neg h]
      rw [UInt64.lt_iff_toNat_lt, Nat.not_lt] at h
      exact UInt64.toNat_sub_of_le _ _ (UInt64.le_iff_toNat_le.2 (Nat.le_of_succ_le h))
  have hnumber : b.number.toNat < addressSpace := b.number.toNat_lt
  unfold inHashWindow
  rw [decide_eq_true_iff, UInt64.le_iff_toNat_le, hlowest, UInt64.lt_iff_toNat_lt, n.toNat_saturate]
  omega

namespace Instruction

variable (setup : Setup) (inv : Invocation)

theorem callDataLoad_computes (h : inv.input.size < addressSpace) (start : Word) :
    callDataLoad.Computes setup inv [start] (Image.word inv.input.at0 start.toNat) := by
  intro σ host m below
  rw [← Image.ofBytes_slice, ← Bytes.window_saturate h]
  rfl

theorem blockHash_computes (n : Word) :
    blockHash.Computes setup inv [n]
      (if n.toNat < setup.env.block.number.toNat ∧ setup.env.block.number.toNat - n.toNat ≤ 256 then
        (setup.env.block.hashOf (.ofNat n.toNat)).toWord
      else 0) := by
  have hanswer : (if setup.env.block.inHashWindow n.saturate then
        (setup.env.block.hashOf n.saturate).toWord
      else 0) = if n.toNat < setup.env.block.number.toNat ∧
        setup.env.block.number.toNat - n.toNat ≤ 256 then
        (setup.env.block.hashOf (.ofNat n.toNat)).toWord
      else 0 := by
    have hwindow := setup.env.block.inHashWindow_saturate n
    by_cases h : n.toNat < setup.env.block.number.toNat ∧
        setup.env.block.number.toNat - n.toNat ≤ 256
    · have hsame : n.saturate = .ofNat n.toNat :=
        if_pos (Nat.lt_trans h.1 setup.env.block.number.toNat_lt)
      rw [if_pos (hwindow.2 h), if_pos h, hsame]
    · rw [if_neg (mt hwindow.1 h), if_neg h]
  intro σ host m below
  rw [← hanswer]
  rfl

end Instruction

namespace Execute

open Machine

variable {σ α : Type}

/-- Writes to memory, at `target`, the `size` bytes that stand in the image from `start` on, and
then changes the run. -/
def copyImage (image : Image) (target start size : Nat) (change : Speculation → Speculation) :
    Action (Machine σ) Control := do
  onMemory (Memory.set target size (image.slice start size))
  onRun change
  return .next

theorem set_of_unaddressed {offset size : Nat} (hz : size ≠ 0) (h : addressSpace ≤ offset + size)
    (value : Bytes) (memory : Memory) :
    Memory.set offset size value memory = .error .invalidMemoryAccess memory := by
  rw [Memory.set, if_neg hz, Memory.refusal, if_pos h]

/-- What is copied is what stands at the position itself, and the range it is copied to is that of
the operands themselves. -/
theorem copyToMemory_bind {data : Bytes} (h : data.size < addressSpace) (target start size : Word)
    (f : Unit → Action (Machine σ) α) (m : Machine σ) :
    (check (spanOf target size) >>= fun range => copyToMemory data range start >>= f) m =
      (onMemory (Memory.set target.toNat size.toNat
        (Image.slice data.at0 start.toNat size.toNat)) >>= f) m := by
  obtain ⟨hspan, hz, hpast⟩ | ⟨hspan, hz⟩ | hspan := spanOf_cases target size
  · rw [check_bind, hspan, onMemory_bind, set_of_unaddressed hz hpast]
  · rw [check_bind, hspan, hz]
    rfl
  · rw [check_bind, hspan, ← Bytes.window_saturate h]
    rfl

/-- A copy to a range that the memory has room for succeeds, and the range then holds that part of
the image. -/
theorem copyImage_of_within (image : Image) (start : Nat) (change : Speculation → Speculation)
    {m : Machine σ} {r : Span} (h : r.Within (min m.frame.memory.limit (addressSpace - 32))) :
    ∃ memory, copyImage image r.offset start r.size change m =
        .ok .next ⟨{ m.frame with memory }, { m.world with run := change m.world.run }⟩ ∧
      ∀ i, memory.data.at0 i = if r.offset ≤ i ∧ i < r.offset + r.size then
          image (start + (i - r.offset))
        else m.frame.memory.data.at0 i := by
  have hset : r.size = 0 ∨ Memory.refusal m.frame.memory.limit r.offset r.size = none := by
    refine h.imp_right fun hle => (Memory.refusal_eq_none_iff _ _ _).2 ⟨?_, by omega⟩
    unfold addressSpace UInt64.size at hle ⊢
    omega
  obtain ⟨memory, hmemory⟩ := m.frame.memory.set_ok hset (image.slice start r.size)
  refine ⟨memory, ?_, fun i => ?_⟩
  · rw [copyImage, onMemory_bind, hmemory]
    rfl
  rcases h with hz | hle
  · rw [Memory.set, if_pos hz] at hmemory
    cases hmemory
    rw [if_neg (by omega)]
  · rw [Memory.at0_set _ hmemory (by omega)]
    by_cases hi : r.offset ≤ i ∧ i < r.offset + r.size
    · rw [if_pos hi, if_pos hi, Image.at0_slice _ _ (by omega)]
    · rw [if_neg hi, if_neg hi]

end Execute

namespace Instruction

open Execute Machine

structure Copies (i : Instruction) (setup : Setup) (inv : Invocation) (operands : List Word)
    (image : Image) (target start size : Nat) (change : Speculation → Speculation) : Prop where
  copied {σ : Type} (host : Host σ) (m : Machine σ) (below : List Word) :
    execute setup host inv i (m.withWords (operands ++ below)) =
      copyImage image target start size change (m.withWords below)
  /-- The destination is accepted if the memory has room for it. No memory grows into the last 32
  addresses. -/
  written {σ : Type} (host : Host σ) (m : Machine σ) (below : List Word)
    (h : (⟨target, size⟩ : Span).Within (min m.frame.memory.limit (addressSpace - 32))) :
    ∃ memory, execute setup host inv i (m.withWords (operands ++ below)) =
        .ok .next ⟨{ m.frame with stack := ⟨below⟩, memory },
          { m.world with run := change m.world.run }⟩ ∧
      ∀ i, memory.data.at0 i = if target ≤ i ∧ i < target + size then image (start + (i - target))
        else m.frame.memory.data.at0 i

variable {setup : Setup} {inv : Invocation}

theorem copies_of_copied {i : Instruction} {operands : List Word} {image : Image}
    {target start size : Nat} {change : Speculation → Speculation}
    (h : ∀ {σ : Type} (host : Host σ) (m : Machine σ) (below : List Word),
      execute setup host inv i (m.withWords (operands ++ below)) =
        copyImage image target start size change (m.withWords below)) :
    i.Copies setup inv operands image target start size change where
  copied := h
  written host m below hr := by
    obtain ⟨memory, hcopy, hread⟩ :=
      copyImage_of_within image start change (m := m.withWords below) hr
    exact ⟨memory, (h host m below).trans hcopy, hread⟩

variable (target start size : Word)

theorem copy_copies (source : FrameData) (h : (frameData inv source).size < addressSpace) :
    (copy source).Copies setup inv [target, start, size] (frameData inv source).at0 target.toNat
      start.toNat size.toNat id := by
  refine copies_of_copied fun host m below => (execute_of_alone rfl host _).trans ?_
  exact copyToMemory_bind h target start size (fun _ => pure Control.next) (m.withWords below)

theorem extCodeCopy_copies {account : Word}
    (h : (setup.committed.code (.ofWord account)).size < addressSpace) :
    extCodeCopy.Copies setup inv [account, target, start, size]
      (setup.committed.code (.ofWord account)).at0 target.toNat start.toNat size.toNat
      (·.recordRead (.ofWord account)) := by
  refine copies_of_copied fun host m below => (execute_of_alone rfl host _).trans ?_
  exact copyToMemory_bind h target start size
    (fun _ => onRun (·.recordRead (.ofWord account)) >>= fun _ => pure Control.next)
    (m.withWords below)

end Instruction

open Instruction

/-- Narrowing a position to 64 bits cannot be seen. Loading and copying read the bytes that stand at
the position itself, with zeros past the end of the data, and a block's hash is answered exactly for
the 256 numbers below that of the current block. No data is as long as the machine can address. -/
theorem narrowing_unobservable (setup : Setup) (inv : Invocation)
    (hinput : inv.input.size < addressSpace) (hcode : inv.code.bytes.size < addressSpace)
    (hcommitted : ∀ a, (setup.committed.code a).size < addressSpace) :
    (∀ start, callDataLoad.Computes setup inv [start] (Image.word inv.input.at0 start.toNat)) ∧
    (∀ target start size,
      (copy .callData).Copies setup inv [target, start, size] inv.input.at0
        target.toNat start.toNat size.toNat id ∧
      (copy .code).Copies setup inv [target, start, size] inv.code.bytes.at0
        target.toNat start.toNat size.toNat id ∧
      ∀ account, extCodeCopy.Copies setup inv [account, target, start, size]
        (setup.committed.code (.ofWord account)).at0
        target.toNat start.toNat size.toNat (·.recordRead (.ofWord account))) ∧
    (∀ n, blockHash.Computes setup inv [n]
      (if n.toNat < setup.env.block.number.toNat ∧ setup.env.block.number.toNat - n.toNat ≤ 256 then
        (setup.env.block.hashOf (.ofNat n.toNat)).toWord
      else 0)) ∧
    ∀ (data : Bytes) (start : Word) (size : Nat), data.size < addressSpace →
      Checked.paddedSlice data start.saturate.toNat size =
        some (Image.slice data.at0 start.toNat size) := by
  refine ⟨callDataLoad_computes setup inv hinput,
    fun target start size => ⟨?_, ?_, fun account => ?_⟩,
    blockHash_computes setup inv, fun data start size h => ?_⟩
  · exact copy_copies target start size .callData hinput
  · exact copy_copies target start size .code hcode
  · exact extCodeCopy_copies target start size (hcommitted (.ofWord account))
  · rw [Checked.paddedSlice_eq h, Bytes.window_saturate h]

def block300 : Setup :=
  ⟨{}, { block := { number := 300, hash := ⟨7⟩ } },
    { Ledger.empty.committed with code := fun _ => #[] }⟩

def threeBytesGiven : Invocation :=
  { jumpingInside with input := #[1, 2, 3] }

/-- Positions that differ by `2 ^ 64` are not taken for each other, and the first hash that is still
answered is that of block 44. -/
theorem threeBytesGiven_reads :
    threeBytesGiven.input.size < addressSpace ∧ threeBytesGiven.code.bytes.size < addressSpace ∧
    (∀ a, (block300.committed.code a).size < addressSpace) ∧
    callDataLoad.Computes block300 threeBytesGiven [2] (3 <<< 248) ∧
    callDataLoad.Computes block300 threeBytesGiven [BitVec.ofNat 256 (2 ^ 64 + 2)] 0 ∧
    blockHash.Computes block300 threeBytesGiven [44] 7 ∧
    blockHash.Computes block300 threeBytesGiven [43] 0 ∧
    blockHash.Computes block300 threeBytesGiven [BitVec.ofNat 256 (2 ^ 64 + 44)] 0 := by
  have hinput : threeBytesGiven.input.size < addressSpace := by decide
  have hcode : threeBytesGiven.code.bytes.size < addressSpace := by decide
  have hcommitted (a : Address) : (block300.committed.code a).size < addressSpace :=
    (by decide : 0 < addressSpace)
  obtain ⟨hload, -, hhash, -⟩ :=
    narrowing_unobservable block300 threeBytesGiven hinput hcode hcommitted
  have hnear : Image.word threeBytesGiven.input.at0 (2 : Word).toNat = 3 <<< 248 := by
    decide +kernel
  have hfar : Image.word threeBytesGiven.input.at0 (BitVec.ofNat 256 (2 ^ 64 + 2)).toNat = 0 := by
    decide +kernel
  exact ⟨hinput, hcode, hcommitted, hnear ▸ hload 2, hfar ▸ hload (BitVec.ofNat 256 (2 ^ 64 + 2)),
    hhash 44, hhash 43, hhash (BitVec.ofNat 256 (2 ^ 64 + 44))⟩

end SpeculativeEvm
