import Mathlib.Algebra.Group.Nat.Defs
import SpeculativeEvm.Proofs.Execute.Operand

/-! Signed division and comparison. They are worked out on unsigned magnitudes and signs, and come
to division toward zero and the order of the two's-complement integers. The magnitude of the
smallest integer has no word as a positive integer, but none of the results needs one. -/

namespace SpeculativeEvm

namespace Word

variable {x y : Word}

theorem toInt_of_negative (h : x.msb = true) : x.toInt = -(x.magnitude.toNat : Int) := by
  rw [magnitude, if_pos h]
  exact BitVec.toInt_eq_neg_toNat_neg_of_msb_true h

theorem toInt_of_not_negative (h : x.msb = false) : x.toInt = x.magnitude.toNat := by
  rw [magnitude, h]
  exact BitVec.toInt_eq_toNat_of_msb h

theorem ofInt_tdiv_toNat (a b : Word) :
    BitVec.ofInt 256 ((a.toNat : Int).tdiv b.toNat) = a / b := by
  rw [← Int.ofNat_tdiv, BitVec.ofInt_natCast, ← BitVec.toNat_udiv, BitVec.ofNat_toNat,
    BitVec.setWidth_eq]

theorem ofInt_tmod_toNat (a b : Word) :
    BitVec.ofInt 256 ((a.toNat : Int).tmod b.toNat) = a % b := by
  rw [← Int.ofNat_tmod, BitVec.ofInt_natCast, ← BitVec.toNat_umod, BitVec.ofNat_toNat,
    BitVec.setWidth_eq]

/-- The quotient of two integers changes its sign with either of them. -/
theorem sdiv_eq_ofInt (x y : Word) :
    Word.sdiv x y = BitVec.ofInt 256 (x.toInt.tdiv y.toInt) := by
  unfold sdiv
  by_cases h : y = 0
  · rw [if_pos h, h]
    exact congrArg (BitVec.ofInt 256) (Int.tdiv_zero x.toInt).symm
  rw [if_neg h]
  cases hx : x.msb with
  | true =>
    cases hy : y.msb with
    | true =>
      rw [toInt_of_negative hx, toInt_of_negative hy, Int.neg_tdiv, Int.tdiv_neg, Int.neg_neg,
        ofInt_tdiv_toNat]
      rfl
    | false =>
      rw [toInt_of_negative hx, toInt_of_not_negative hy, Int.neg_tdiv, BitVec.ofInt_neg,
        ofInt_tdiv_toNat]
      rfl
  | false =>
    cases hy : y.msb with
    | true =>
      rw [toInt_of_not_negative hx, toInt_of_negative hy, Int.tdiv_neg, BitVec.ofInt_neg,
        ofInt_tdiv_toNat]
      rfl
    | false =>
      rw [toInt_of_not_negative hx, toInt_of_not_negative hy, ofInt_tdiv_toNat]
      rfl

/-- The remainder of two integers changes its sign with the first of them only. -/
theorem smod_eq_ofInt (hy : y ≠ 0) :
    Word.smod x y = BitVec.ofInt 256 (x.toInt.tmod y.toInt) := by
  have hmagnitude (a : Int) : a.tmod y.toInt = a.tmod y.magnitude.toNat := by
    cases hy : y.msb with
    | true => rw [toInt_of_negative hy, Int.tmod_neg]
    | false => rw [toInt_of_not_negative hy]
  unfold smod
  rw [if_neg hy, hmagnitude]
  cases hx : x.msb with
  | true =>
    rw [toInt_of_negative hx, Int.neg_tmod, BitVec.ofInt_neg, ofInt_tmod_toNat]
    rfl
  | false =>
    rw [toInt_of_not_negative hx, ofInt_tmod_toNat]
    rfl

theorem natAbs_toInt_le (x : Word) : x.toInt.natAbs ≤ 2 ^ 255 := by
  have hlow := x.le_toInt
  have hhigh := x.toInt_lt
  omega

theorem natAbs_toInt_pos (hy : y ≠ 0) : 0 < y.toInt.natAbs := by
  rw [Int.natAbs_pos, Ne, ← BitVec.toInt_zero (w := 256), BitVec.toInt_inj]
  exact hy

theorem natAbs_tmod_lt (hy : y ≠ 0) : (x.toInt.tmod y.toInt).natAbs < y.toInt.natAbs := by
  rw [Int.natAbs_tmod]
  exact Nat.mod_lt _ (natAbs_toInt_pos hy)

/-- A remainder is smaller than the divisor, so it is an integer that has a word. -/
theorem toInt_smod (hy : y ≠ 0) : (Word.smod x y).toInt = x.toInt.tmod y.toInt := by
  have hlt := natAbs_tmod_lt (x := x) hy
  have hle := y.natAbs_toInt_le
  rw [smod_eq_ofInt hy, BitVec.toInt_ofInt_eq_self (by decide) (by omega) (by omega)]

/-- All quotients but one are integers that have a word: the smallest integer has no opposite. -/
theorem toInt_sdiv (hy : y ≠ 0) (h : ¬ (x = .intMin 256 ∧ y = -1)) :
    (Word.sdiv x y).toInt = x.toInt.tdiv y.toInt := by
  have hlow := x.le_toInt
  have hhigh := x.toInt_lt
  have hpos := natAbs_toInt_pos hy
  rw [sdiv_eq_ofInt]
  by_cases hone : y.toInt.natAbs = 1
  · rcases Int.natAbs_eq_iff.1 hone with hy | hy
    · have hquotient : x.toInt.tdiv y.toInt = x.toInt := by rw [hy]; exact Int.tdiv_one _
      rw [hquotient, BitVec.ofInt_toInt]
    · have hquotient : x.toInt.tdiv y.toInt = -x.toInt := by
        rw [hy, Int.tdiv_neg]
        exact congrArg Neg.neg (Int.tdiv_one _)
      have hleast : x.toInt ≠ -2 ^ 255 := fun hx =>
        h ⟨BitVec.toInt_inj.1 (hx.trans rfl), BitVec.toInt_inj.1 (hy.trans rfl)⟩
      rw [hquotient]
      exact BitVec.toInt_ofInt_eq_self (by decide) (by omega) (by omega)
  · have hsize : (x.toInt.tdiv y.toInt).natAbs = x.toInt.natAbs / y.toInt.natAbs :=
      Int.natAbs_tdiv x.toInt y.toInt
    have hhalf : x.toInt.natAbs / y.toInt.natAbs ≤ x.toInt.natAbs / 2 :=
      Nat.div_le_div_left (by omega) (by decide)
    exact BitVec.toInt_ofInt_eq_self (by decide) (by omega) (by omega)

theorem sdiv_intMin : Word.sdiv (.intMin 256) (-1) = .intMin 256 := by
  decide

theorem sdiv_mul_add_smod (hy : y ≠ 0) : Word.sdiv x y * y + Word.smod x y = x := by
  calc Word.sdiv x y * y + Word.smod x y
      = BitVec.ofInt 256 (x.toInt.tdiv y.toInt) * BitVec.ofInt 256 y.toInt +
          BitVec.ofInt 256 (x.toInt.tmod y.toInt) := by
        rw [sdiv_eq_ofInt, smod_eq_ofInt hy, BitVec.ofInt_toInt]
    _ = BitVec.ofInt 256 (y.toInt * x.toInt.tdiv y.toInt + x.toInt.tmod y.toInt) := by
        rw [← BitVec.ofInt_mul, ← BitVec.ofInt_add, Int.mul_comm]
    _ = x := by
        rw [Int.mul_tdiv_add_tmod, BitVec.ofInt_toInt]

theorem slt_iff (x y : Word) : Word.slt x y = true ↔ x.toInt < y.toInt := by
  have hlt {a : Word} (h : a.msb = true) : a.toInt < 0 := by
    rwa [BitVec.msb_eq_toInt, decide_eq_true_iff] at h
  have hle {a : Word} (h : a.msb = false) : 0 ≤ a.toInt := by
    rw [toInt_of_not_negative h]
    exact Int.natCast_nonneg _
  have hsame (h : x.msb = y.msb) : x < y ↔ x.toInt < y.toInt := by
    rw [BitVec.lt_def, x.toInt_eq_msb_cond, y.toInt_eq_msb_cond, h]
    split <;> omega
  unfold slt
  cases hx : x.msb with
  | true =>
    cases hy : y.msb with
    | true => exact decide_eq_true_iff.trans (hsame (hx.trans hy.symm))
    | false => exact iff_of_true rfl (Int.lt_of_lt_of_le (hlt hx) (hle hy))
  | false =>
    cases hy : y.msb with
    | true =>
      have hle : y.toInt ≤ x.toInt := Int.le_trans (Int.le_of_lt (hlt hy)) (hle hx)
      exact iff_of_false nofun (Int.not_lt.2 hle)
    | false => exact decide_eq_true_iff.trans (hsame (hx.trans hy.symm))

structure DividesTowardZero (x y q r : Word) : Prop where
  quotient : q = .ofInt 256 (x.toInt.tdiv y.toInt)
  /-- All quotients but one are integers that have a word. -/
  fits : ¬ (x = .intMin 256 ∧ y = -1) → q.toInt = x.toInt.tdiv y.toInt
  wraps : x = .intMin 256 ∧ y = -1 → q = .intMin 256
  remainder : r.toInt = x.toInt - y.toInt * x.toInt.tdiv y.toInt
  sign : r = 0 ∨ r.toInt.sign = x.toInt.sign
  smaller : r.toInt.natAbs < y.toInt.natAbs
  recomposed : x = q * y + r

theorem dividesTowardZero (hy : y ≠ 0) :
    DividesTowardZero x y (Word.sdiv x y) (Word.smod x y) where
  quotient := sdiv_eq_ofInt x y
  fits := toInt_sdiv hy
  wraps h := by rw [h.1, h.2, sdiv_intMin]
  remainder := by rw [toInt_smod hy, Int.tmod_def]
  sign := by
    rw [toInt_smod hy, Int.sign_tmod]
    by_cases hd : y.toInt ∣ x.toInt
    · left
      rw [smod_eq_ofInt hy, Int.tmod_eq_zero_of_dvd hd]
      rfl
    · right
      rw [if_neg hd]
  smaller := by
    rw [toInt_smod hy]
    exact natAbs_tmod_lt hy
  recomposed := (sdiv_mul_add_smod hy).symm

end Word

open Instruction

/-- `SDIV` and `SMOD` divide toward zero, and leave zero where the divisor is zero. `SLT` and `SGT`
compare the two's-complement integers. -/
theorem signed_division (setup : Setup) (inv : Invocation) (x y : Word) :
    (∃ q r, (binary .sdiv).Computes setup inv [x, y] q ∧
      (binary .smod).Computes setup inv [x, y] r ∧
      if y = 0 then q = 0 ∧ r = 0 else Word.DividesTowardZero x y q r) ∧
    (binary .slt).Computes setup inv [x, y] (if x.toInt < y.toInt then 1 else 0) ∧
    (binary .sgt).Computes setup inv [x, y] (if y.toInt < x.toInt then 1 else 0) := by
  have hcompare (a b : Word) :
      Word.ofBool (Word.slt a b) = if a.toInt < b.toInt then 1 else 0 := by
    unfold Word.ofBool
    simp only [Word.slt_iff]
  refine ⟨⟨Word.sdiv x y, Word.smod x y, binary_computes setup inv .sdiv x y,
    binary_computes setup inv .smod x y, ?_⟩, ?_, ?_⟩
  · by_cases hy : y = 0
    · rw [if_pos hy]
      exact ⟨if_pos hy, if_pos hy⟩
    · rw [if_neg hy]
      exact Word.dividesTowardZero hy
  · rw [← hcompare]
    exact binary_computes setup inv .slt x y
  · rw [← hcompare]
    exact binary_computes setup inv .sgt x y

end SpeculativeEvm
