import Mathlib.Data.BitVec
import SpeculativeEvm.Proofs.Checked.Word
import SpeculativeEvm.Proofs.Execute.Operand
import SpeculativeEvm.Proofs.Fetch

/-! Shifts, the extension of a sign, and single bytes. They are worked out with masks and
complements up to a threshold and are constant from there on, and come to multiplying, dividing and
reducing integers by powers of two, the same on either side of the threshold. -/

namespace SpeculativeEvm

namespace Word

theorem toNat_shl (s v : Word) : (shl s v).toNat = v.toNat * 2 ^ s.toNat % 2 ^ 256 := by
  unfold shl
  by_cases h : s < 256
  · rw [if_pos h, BitVec.toNat_shiftLeft, Nat.shiftLeft_eq]
  · have hs : 256 ≤ s.toNat := Nat.le_of_not_lt h
    have hdvd : 2 ^ 256 ∣ v.toNat * 2 ^ s.toNat :=
      Nat.dvd_mul_left_of_dvd (Nat.pow_dvd_pow 2 hs) v.toNat
    rw [if_neg h, Nat.mod_eq_zero_of_dvd hdvd]
    rfl

theorem toNat_shr (s v : Word) : (shr s v).toNat = v.toNat / 2 ^ s.toNat := by
  unfold shr
  by_cases h : s < 256
  · rw [if_pos h, BitVec.toNat_ushiftRight, Nat.shiftRight_eq_div_pow]
  · have hs : 256 ≤ s.toNat := Nat.le_of_not_lt h
    have hlt : v.toNat < 2 ^ s.toNat :=
      Nat.lt_of_lt_of_le v.isLt (Nat.pow_le_pow_right (by decide) hs)
    rw [if_neg h, Nat.div_eq_of_lt hlt]
    rfl

/-- Divided by a power of two that is at least as large, a two's-complement integer leaves only its
sign. -/
theorem toInt_ediv_two_pow {n : Nat} (h : 255 ≤ n) (v : Word) :
    v.toInt / 2 ^ n = if v.toInt < 0 then -1 else 0 := by
  have hpow : (2 : Int) ^ 255 ≤ 2 ^ n := by
    exact_mod_cast Nat.pow_le_pow_right (by decide : 0 < 2) h
  have hlow := v.le_toInt
  have hhigh := v.toInt_lt
  split
  · next hneg => exact Int.ediv_eq_neg_one_of_neg_of_le hneg (by omega)
  · next hneg => exact Int.ediv_eq_zero_of_lt (by omega) (by omega)

theorem toInt_sar (s v : Word) : (sar s v).toInt = v.toInt / 2 ^ s.toNat := by
  unfold sar
  rw [BitVec.toInt_sshiftRight, Int.shiftRight_eq_div_pow, Nat.cast_pow, Nat.cast_two]
  by_cases h : s < 256
  · rw [if_pos h]
  · have hs : 256 ≤ s.toNat := Nat.le_of_not_lt h
    rw [if_neg h, toInt_ediv_two_pow (Nat.le_refl 255), toInt_ediv_two_pow (by omega)]

/-- The two's-complement value of the low `bits` bits of a number. -/
def lowValue (bits n : Nat) : Int :=
  if 2 * (n % 2 ^ bits) < 2 ^ bits then (n % 2 ^ bits : Nat) else (n % 2 ^ bits : Nat) - 2 ^ bits

theorem toInt_setWidth_eq_lowValue (bits : Nat) (v : Word) :
    (v.setWidth bits).toInt = lowValue bits v.toNat := by
  rw [BitVec.toInt_eq_toNat_cond, BitVec.toNat_setWidth, Nat.cast_pow, Nat.cast_two]
  rfl

/-- What lies above the low bits is shifted out, and on the way back the sign fills its place. -/
theorem toInt_shiftLeft_ediv {bits n : Nat} (h : 0 < bits) (hn : n + bits = 256) (v : Word) :
    (v <<< n).toInt / 2 ^ n = lowValue bits v.toNat := by
  have hsplit : (2 : Nat) ^ 256 = 2 ^ n * 2 ^ bits := by rw [← hn, Nat.pow_add]
  have heven : 2 ∣ 2 ^ bits := dvd_pow_self 2 (by omega)
  have hpos : (2 : Int) ^ n ≠ 0 := pow_ne_zero n (by decide)
  have hmul : (v <<< n).toInt = 2 ^ n * (v.toNat : Int).bmod (2 ^ bits) := by
    rw [BitVec.toInt_shiftLeft, Nat.shiftLeft_eq, hsplit, Nat.mul_comm, Nat.cast_mul,
      Int.mod_bmod_mul_of_pos _ _ (Nat.two_pow_pos n) heven, Nat.cast_pow, Nat.cast_two]
  rw [hmul, Int.mul_ediv_cancel_left _ hpos, ← BitVec.toInt_setWidth, toInt_setWidth_eq_lowValue]

section SignExtend

variable {b : Word}

theorem signExtend_of_le (hb : ¬ b.toNat < 31) (v : Word) : Word.signExtend b v = v := if_neg hb

variable (hb : b.toNat < 31) (v : Word)
include hb

theorem signExtend_of_lt :
    Word.signExtend b v = (v.setWidth (8 * (b.toNat + 1))).signExtend 256 := if_pos hb

theorem toInt_signExtend :
    (Word.signExtend b v).toInt = lowValue (8 * (b.toNat + 1)) v.toNat := by
  rw [signExtend_of_lt hb, BitVec.toInt_signExtend_of_le (by omega), toInt_setWidth_eq_lowValue]

/-- To extend the sign is to shift to the left, until it is the highest bit, and back. -/
theorem signExtend_eq_sar_shl {shift : Word} (hshift : shift.toNat = 248 - 8 * b.toNat) :
    Word.signExtend b v = sar shift (shl shift v) := by
  have hlt : shift.toNat < 256 := by omega
  have hshl : shl shift v = v <<< shift.toNat := if_pos hlt
  have hbits : shift.toNat + 8 * (b.toNat + 1) = 256 := by omega
  refine BitVec.toInt_inj.1 ?_
  rw [toInt_signExtend hb, toInt_sar, hshl, toInt_shiftLeft_ediv (by omega) hbits]

/-- The extension keeps the bits that it depends on. -/
theorem setWidth_signExtend :
    (Word.signExtend b v).setWidth (8 * (b.toNat + 1)) = v.setWidth (8 * (b.toNat + 1)) := by
  rw [signExtend_of_lt hb]
  refine BitVec.eq_of_getLsbD_eq fun i hi => ?_
  have hword : i < 256 := by omega
  simp [-BitVec.getLsbD_eq_getElem, BitVec.getLsbD_signExtend, hi, hword]

omit hb

theorem signExtend_signExtend (b v : Word) :
    Word.signExtend b (Word.signExtend b v) = Word.signExtend b v := by
  by_cases hb : b.toNat < 31
  · rw [signExtend_of_lt hb, setWidth_signExtend hb, ← signExtend_of_lt hb]
  · rw [signExtend_of_le hb]

end SignExtend

theorem toNat_byte (t v : Word) :
    (byte t v).toNat = if t.toNat < 32 then v.toNat / 256 ^ (31 - t.toNat) % 256 else 0 := by
  unfold byte
  by_cases h : t.toNat < 32
  · have hlow : (0xff : Word).toNat = 2 ^ 8 - 1 := rfl
    have hpow : (2 : Nat) ^ (8 * (31 - t.toNat)) = 256 ^ (31 - t.toNat) := Nat.pow_mul 2 8 _
    rw [if_pos h, if_pos (show t < 32 from h), BitVec.toNat_and, BitVec.toNat_ushiftRight,
      Nat.shiftRight_eq_div_pow, hlow, Nat.and_two_pow_sub_one_eq_mod, hpow]
  · rw [if_neg h, if_neg (show ¬ t < 32 from h)]
    rfl

end Word

namespace Instruction

/-- The instruction replaces the operands by the word, and operations that stay in their domains,
with masks and complements where the sign matters, come to the word as well. -/
def WorksOut (op : BinaryOp) (setup : Setup) (inv : Invocation) (x y w : Word) : Prop :=
  (binary op).Computes setup inv [x, y] w ∧ Checked.binary op x y = some w

theorem worksOut_apply (op : BinaryOp) (setup : Setup) (inv : Invocation) (x y : Word) :
    WorksOut op setup inv x y (op.apply x y) :=
  ⟨binary_computes setup inv op x y, Checked.binary_eq op x y⟩

end Instruction

open Instruction

/-- `SHL` multiplies by a power of two, `SHR` and `SAR` divide by one and round down. `SIGNEXTEND`
takes the value of the low bytes, which is to shift to the left and back, and does nothing more when
it is repeated. `BYTE` takes a digit in base 256. -/
theorem shifts_are_integer_operations (setup : Setup) (inv : Invocation) (x v : Word) :
    (∃ w, WorksOut .shl setup inv x v w ∧ w.toNat = v.toNat * 2 ^ x.toNat % 2 ^ 256) ∧
    (∃ w, WorksOut .shr setup inv x v w ∧ w.toNat = v.toNat / 2 ^ x.toNat) ∧
    (∃ w, WorksOut .sar setup inv x v w ∧
      w = .ofInt 256 (v.toInt.fdiv (2 ^ x.toNat)) ∧ w.toInt = v.toInt.fdiv (2 ^ x.toNat) ∧
      (256 ≤ x.toNat → w.toInt = if v.toInt < 0 then -1 else 0)) ∧
    (∃ w, WorksOut .signExtend setup inv x v w ∧ WorksOut .signExtend setup inv x w w ∧
      if x.toNat < 31 then
        w = .ofInt 256 (Word.lowValue (8 * (x.toNat + 1)) v.toNat) ∧
        w.toInt = Word.lowValue (8 * (x.toNat + 1)) v.toNat ∧
        ∃ shift shifted : Word, shift.toNat = 248 - 8 * x.toNat ∧
          WorksOut .shl setup inv shift v shifted ∧ WorksOut .sar setup inv shift shifted w
      else w = v) ∧
    ∃ w, WorksOut .byte setup inv x v w ∧
      w.toNat = if x.toNat < 32 then v.toNat / 256 ^ (31 - x.toNat) % 256 else 0 := by
  have hsar : (Word.sar x v).toInt = v.toInt.fdiv (2 ^ x.toNat) := by
    rw [Word.toInt_sar, Int.fdiv_eq_ediv_of_nonneg _ (Int.pow_nonneg (by decide))]
  refine ⟨⟨Word.shl x v, worksOut_apply .shl setup inv x v, Word.toNat_shl x v⟩,
    ⟨Word.shr x v, worksOut_apply .shr setup inv x v, Word.toNat_shr x v⟩,
    ⟨Word.sar x v, worksOut_apply .sar setup inv x v, ?_, hsar, fun hx => ?_⟩,
    ⟨Word.signExtend x v, worksOut_apply .signExtend setup inv x v, ?_, ?_⟩,
    ⟨Word.byte x v, worksOut_apply .byte setup inv x v, Word.toNat_byte x v⟩⟩
  · rw [← hsar, BitVec.ofInt_toInt]
  · rw [Word.toInt_sar, Word.toInt_ediv_two_pow (by omega)]
  · have hagain := worksOut_apply .signExtend setup inv x (Word.signExtend x v)
    rwa [BinaryOp.apply, Word.signExtend_signExtend] at hagain
  · by_cases hx : x.toNat < 31
    · have hvalue := Word.toInt_signExtend hx v
      have hshift : (BitVec.ofNat 256 (248 - 8 * x.toNat)).toNat = 248 - 8 * x.toNat :=
        Nat.mod_eq_of_lt (by omega)
      rw [if_pos hx, Word.signExtend_eq_sar_shl hx v hshift]
      rw [Word.signExtend_eq_sar_shl hx v hshift] at hvalue
      refine ⟨?_, hvalue, _, _, hshift, worksOut_apply .shl setup inv _ v,
        worksOut_apply .sar setup inv _ _⟩
      rw [← hvalue, BitVec.ofInt_toInt]
    · rw [if_neg hx]
      exact Word.signExtend_of_le hx v

/-- However far the smallest integer is shifted, its sign is left. -/
theorem smallest_shifted_out : 256 ≤ (BitVec.allOnes 256).toNat ∧
    ∃ w, WorksOut .sar bareSetup jumpingInside (.allOnes 256) (.intMin 256) w ∧ w.toInt = -1 := by
  have hfar : 256 ≤ (BitVec.allOnes 256).toNat := by decide
  obtain ⟨-, -, ⟨w, hw, -, -, hsign⟩, -, -⟩ :=
    shifts_are_integer_operations bareSetup jumpingInside (.allOnes 256) (.intMin 256)
  exact ⟨hfar, w, hw, (hsign hfar).trans (by decide)⟩

end SpeculativeEvm
