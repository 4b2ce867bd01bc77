import SpeculativeEvm.Creation
import SpeculativeEvm.Execute.Operand
import SpeculativeEvm.Proofs.Checked.Word
import SpeculativeEvm.Proofs.Memory.Image

/-! Byte strings by slices with bounds: a slice must lie in its string, and what is copied into one
must be as long as it. Windows, immediates, and the readings of words, addresses and hashes are made
of slices that lie where they must. -/

namespace SpeculativeEvm

/-- The bytes fit in one allocation, which is less than half of the address space. -/
def Bytes.Allocatable (bytes : Bytes) : Prop := 2 * bytes.size < addressSpace

instance (bytes : Bytes) : Decidable bytes.Allocatable :=
  inferInstanceAs (Decidable (2 * bytes.size < addressSpace))

namespace Bytes.Allocatable

variable {bytes : Bytes}

theorem empty : Allocatable #[] := by
  decide

theorem size_lt (h : bytes.Allocatable) : bytes.size < addressSpace := by
  unfold Allocatable at h
  omega

/-- A word more than the bytes can be counted. -/
theorem room (h : bytes.Allocatable) : bytes.size + 32 < addressSpace := by
  unfold Allocatable addressSpace UInt64.size at *
  omega

end Bytes.Allocatable

namespace Checked

def slice (bytes : Bytes) (start stop : Nat) : Option Bytes :=
  if start ≤ stop ∧ stop ≤ bytes.size then some (bytes.window start (stop - start)) else none

/-- Copies `source` over the bytes from `start` to `stop`, as many as `source` has. -/
def overwrite (bytes : Bytes) (start stop : Nat) (source : Bytes) : Option Bytes :=
  if start ≤ stop ∧ stop ≤ bytes.size ∧ source.size = stop - start then
    some (Memory.blit bytes start (stop - start) source)
  else none

/-- The word of at most 32 bytes. -/
def wordOf (bytes : Bytes) : Option Word :=
  if bytes.size ≤ 32 then some (.ofBytes bytes) else none

/-- The sum, the largest 64-bit number when it does not fit. -/
def saturatingAdd (a b : Nat) : Nat := min (a + b) (addressSpace - 1)

/-- `size` bytes of `source` from `start`, zeros past its end. -/
def paddedSlice (source : Bytes) (start size : Nat) : Option Bytes := do
  let start := min start source.size
  let stop := min (saturatingAdd start size) source.size
  overwrite (Array.replicate size 0) 0 (← sub stop start) (← slice source start stop)

/-- The immediate of `size` bytes after `pc`, in the low bytes of a word. -/
def immediate (code : Bytes) (pc size : Nat) : Option Word := do
  let start := min (← add pc 1) code.size
  let stop := min (← add start size) code.size
  let available ← sub stop start
  let low ← sub 32 size
  wordOf (← overwrite (Array.replicate 32 0) low (← add low available) (← slice code start stop))

/-- The address of the last 20 of 32 bytes. -/
def addressOf (bytes : Bytes) : Option Address := do
  return .ofBytes (← overwrite (Array.replicate 20 0) 0 20 (← slice bytes 12 32))

/-- The word of a number, which `what` names in the fault. -/
def fitWord (what : String) (n : Nat) : Option (Except Fault Word) :=
  if n = 0 then some (.ok 0)
  else if 32 < (Bytes.ofNatMinimal n).size then
    some (.error (.fatal s!"{what} does not fit in 256 bits"))
  else do return .ok (← wordOf (Bytes.ofNatMinimal n))

theorem slice_eq {bytes : Bytes} {start stop : Nat} (h : start ≤ stop) (hs : stop ≤ bytes.size) :
    slice bytes start stop = some (bytes.window start (stop - start)) := if_pos ⟨h, hs⟩

theorem overwrite_eq {bytes source : Bytes} {start stop : Nat} (h : start ≤ stop)
    (hs : stop ≤ bytes.size) (hl : source.size = stop - start) :
    overwrite bytes start stop source = some (Memory.blit bytes start (stop - start) source) :=
  if_pos ⟨h, hs, hl⟩

theorem wordOf_eq {bytes : Bytes} (h : bytes.size ≤ 32) : wordOf bytes = some (.ofBytes bytes) :=
  if_pos h

theorem paddedSlice_eq {source : Bytes} (h : source.size < addressSpace) (start size : Nat) :
    paddedSlice source start size = some (source.window start size) := by
  have hstop : min (saturatingAdd (min start source.size) size) source.size =
      min (min start source.size + size) source.size := by
    unfold saturatingAdd
    omega
  unfold paddedSlice
  dsimp only
  rw [hstop]
  generalize hfirst : min start source.size = first
  generalize hlast : min (first + size) source.size = last
  have hle : first ≤ last := by omega
  simp only [Option.bind_eq_bind, sub_eq hle, slice_eq hle (show last ≤ source.size by omega),
    Option.bind_some]
  rw [overwrite_eq (Nat.zero_le _) (by simp; omega) (by simp)]
  refine congrArg some (Bytes.ext_at0 (by simp [Memory.size_blit]) fun i hi => ?_)
  rw [Bytes.size_window] at hi
  rw [Memory.at0_blit _ (by simp; omega), Bytes.at0_replicate, Bytes.at0_window, Bytes.at0_window,
    if_pos hi]
  by_cases hin : i < last - first
  · rw [if_pos (by omega), if_pos (by omega)]
    congr 1
    omega
  · rw [if_neg (by omega), Bytes.at0_of_size_le (by omega)]

/-- An immediate of at most 32 bytes fits in a word, also where the code cuts it short. -/
theorem immediate_eq {code : Bytes} {pc size : Nat} (hpc : pc < code.size)
    (hcode : code.size + 32 < addressSpace) (hsize : size ≤ 32) :
    immediate code pc size = some (Execute.immediate code pc size) := by
  unfold immediate Execute.immediate
  simp only [Option.bind_eq_bind, add_eq (show pc + 1 < addressSpace by omega), Option.bind_some,
    Nat.min_eq_left (show pc + 1 ≤ code.size by omega),
    add_eq (show pc + 1 + size < addressSpace by omega), sub_eq hsize]
  generalize hlast : min (pc + 1 + size) code.size = last
  have hle : pc + 1 ≤ last := by omega
  have hspace : 64 < addressSpace := by decide
  simp only [sub_eq hle, Option.bind_some, slice_eq hle (show last ≤ code.size by omega),
    add_eq (show 32 - size + (last - (pc + 1)) < addressSpace by omega)]
  rw [overwrite_eq (by omega) (by simp; omega) (by simp), Option.bind_some,
    wordOf_eq (by simp [Memory.size_blit])]
  -- the window stands at the low end of the word, after zeros
  have hbytes : Memory.blit (Array.replicate 32 0) (32 - size) (32 - size + (last - (pc + 1)) -
      (32 - size)) (code.window (pc + 1) (last - (pc + 1))) =
        Array.replicate (32 - size) 0 ++ code.window (pc + 1) size := by
    refine Bytes.ext_at0 (by simp [Memory.size_blit]; omega) fun i hi => ?_
    rw [Memory.at0_blit _ (by simp; omega), Bytes.at0_replicate, Bytes.at0_append,
      Bytes.at0_replicate, Bytes.at0_window, Bytes.at0_window, Array.size_replicate]
    rw [Array.size_append, Array.size_replicate, Bytes.size_window] at hi
    by_cases hlow : i < 32 - size
    · rw [if_neg (by omega), if_pos hlow]
    · rw [if_neg hlow, if_pos (show i - (32 - size) < size by omega)]
      by_cases hin : i - (32 - size) < last - (pc + 1)
      · rw [if_pos (by omega), if_pos hin]
      · rw [if_neg (by omega), Bytes.at0_of_size_le (by omega)]
  rw [hbytes, Word.ofBytes, Bytes.toNat_replicate_append, Word.ofBytes]

theorem addressOf_eq (n : Nat) :
    addressOf (Bytes.ofNat 32 n) = some ⟨BitVec.ofNat 160 n⟩ := by
  unfold addressOf
  rw [slice_eq (by decide) (by simp)]
  simp only [Option.bind_eq_bind, Option.bind_some]
  have hlast : (Bytes.ofNat 32 n).window 12 (32 - 12) = Bytes.ofNat 20 n :=
    Bytes.window_ofNat (show 20 ≤ 32 by decide) n
  rw [hlast, overwrite_eq (Nat.zero_le _) (by simp) (by simp)]
  have hcopy : Memory.blit (Array.replicate 20 0) 0 (20 - 0) (Bytes.ofNat 20 n) =
      Bytes.ofNat 20 n := by
    refine Bytes.ext_at0 (by simp [Memory.size_blit]) fun i hi => ?_
    rw [Bytes.size_ofNat] at hi
    rw [Memory.at0_blit _ (by simp), if_pos (by omega), Nat.sub_zero]
  rw [hcopy]
  refine congrArg (fun bits => some (Address.mk bits)) (BitVec.eq_of_toNat_eq ?_)
  have hbits : 256 ^ 20 = 2 ^ 160 := by decide
  rw [Bytes.toNat_ofNat, BitVec.toNat_ofNat, BitVec.toNat_ofNat, hbits, Nat.mod_mod]

/-- The address in a word's low bytes. -/
theorem addressOf_toBytes (w : Word) : addressOf w.toBytes = some (.ofWord w) := by
  rw [Word.toBytes, addressOf_eq]
  rfl

theorem wordOf_ofNat (n : Nat) {size : Nat} (h : size ≤ 32) (hn : n < 256 ^ size) :
    wordOf (Bytes.ofNat size n) = some (BitVec.ofNat 256 n) := by
  rw [wordOf_eq (by simpa using h), Word.ofBytes, Bytes.toNat_ofNat, Nat.mod_eq_of_lt hn]

theorem wordOf_address (a : Address) : wordOf a.bytes = some a.toWord := by
  have hlt : a.bits.toNat < 256 ^ 20 := a.bits.isLt
  refine (wordOf_ofNat _ (by decide) hlt).trans (congrArg some ?_)
  rw [BitVec.ofNat_toNat, Address.toWord]

theorem wordOf_hash (h : Hash) : wordOf h.bytes = some h.toWord := by
  have hlt : h.bits.toNat < 256 ^ 32 := h.bits.isLt
  refine (wordOf_ofNat _ (by decide) hlt).trans (congrArg some ?_)
  rw [BitVec.ofNat_toNat, BitVec.setWidth_eq, Hash.toWord]

/-- A number of more than 32 bytes is refused before it is read as a word. -/
theorem fitWord_eq (what : String) (n : Nat) :
    fitWord what n = some (SpeculativeEvm.fitWord what n) := by
  have hmax : (BitVec.allOnes 256).toNat = 256 ^ 32 - 1 := by decide
  have hpos : 0 < 256 ^ 32 := by decide
  have hbytes := Bytes.byteLength_le_iff 32 n
  unfold fitWord SpeculativeEvm.fitWord Word.ofNat?
  rw [hmax, Bytes.ofNatMinimal, Bytes.size_ofNat]
  by_cases hz : n = 0
  · subst hz
    rfl
  · by_cases hfits : n < 256 ^ 32
    · rw [if_neg hz, if_neg (by omega), if_pos (by omega)]
      have hword := wordOf_ofNat n (hbytes.2 hfits)
        ((Bytes.byteLength_le_iff _ n).1 (Nat.le_refl _))
      rw [hword]
      rfl
    · rw [if_neg hz, if_pos (by omega), if_neg (by omega)]

end Checked

end SpeculativeEvm
