import SpeculativeEvm.Proofs.Checked.Word
import SpeculativeEvm.Proofs.Execute.Operand
import SpeculativeEvm.Proofs.Fetch

/-! Sums and products modulo a word. Both are worked out in double width, where no carry is lost,
and a remainder by a word is a word again, so the low half keeps all of it. -/

namespace SpeculativeEvm

section Widen

variable {narrow wide : Nat}

theorem toNat_setWidth_add (h : narrow < wide) (x y : BitVec narrow) :
    (x.setWidth wide + y.setWidth wide).toNat = x.toNat + y.toNat := by
  have hle := Nat.le_of_lt h
  rw [BitVec.toNat_add, BitVec.toNat_setWidth_of_le hle, BitVec.toNat_setWidth_of_le hle]
  exact Nat.mod_eq_of_lt (Checked.toNat_add_lt h x y)

theorem toNat_setWidth_mul (h : narrow + narrow ≤ wide) (x y : BitVec narrow) :
    (x.setWidth wide * y.setWidth wide).toNat = x.toNat * y.toNat := by
  have hfull : 2 ^ narrow * 2 ^ narrow ≤ 2 ^ wide := by
    rw [← Nat.pow_add]
    exact Nat.pow_le_pow_right (by decide) h
  have hle : narrow ≤ wide := by omega
  rw [BitVec.toNat_mul, BitVec.toNat_setWidth_of_le hle, BitVec.toNat_setWidth_of_le hle]
  exact Nat.mod_eq_of_lt (Nat.lt_of_lt_of_le (Nat.mul_lt_mul'' x.isLt y.isLt) hfull)

end Widen

namespace Word

/-- The limb `i` of a number in double width: 64 of its bits, the least significant limb first. -/
def limb (x : BitVec 512) (i : Nat) : BitVec 64 :=
  x.extractLsb' (64 * i) 64

def ofLimbs (l₀ l₁ l₂ l₃ : BitVec 64) : Word :=
  l₃ ++ l₂ ++ l₁ ++ l₀

theorem lowHalf_eq_ofLimbs (x : BitVec 512) :
    lowHalf x = ofLimbs (limb x 0) (limb x 1) (limb x 2) (limb x 3) := by
  unfold ofLimbs limb
  rw [BitVec.extractLsb'_append_extractLsb'_eq_extractLsb' (show 64 * 3 = 64 * 2 + 64 from rfl),
    BitVec.extractLsb'_append_extractLsb'_eq_extractLsb' (show 64 * 2 = 64 * 1 + 64 from rfl),
    BitVec.extractLsb'_append_extractLsb'_eq_extractLsb' (show 64 * 1 = 64 * 0 + 64 from rfl)]
  exact BitVec.setWidth_eq_extractLsb' (by decide)

/-- The low half of a number in double width, which is its four low limbs, is the number. -/
structure FitsLowHalf (x : BitVec 512) : Prop where
  kept : lowHalf x = ofLimbs (limb x 0) (limb x 1) (limb x 2) (limb x 3)
  dropped (i : Nat) (hi : 4 ≤ i) : limb x i = 0
  same : (lowHalf x).toNat = x.toNat

theorem fitsLowHalf {x : BitVec 512} (h : x.toNat < 2 ^ 256) : FitsLowHalf x where
  kept := lowHalf_eq_ofLimbs x
  dropped i hi := by
    have hlt : x.toNat < 2 ^ (64 * i) :=
      Nat.lt_of_lt_of_le h (Nat.pow_le_pow_right (by decide) (by omega))
    refine BitVec.eq_of_toNat_eq ?_
    rw [limb, BitVec.extractLsb'_toNat, Nat.shiftRight_eq_div_pow, Nat.div_eq_of_lt hlt]
    rfl
  same := by rw [lowHalf, BitVec.toNat_setWidth, Nat.mod_eq_of_lt h]

variable {n : Word} (hn : n ≠ 0) (x : BitVec 512)

theorem toNat_mod_widen (n : Word) : (x % n.widen).toNat = x.toNat % n.toNat := by
  rw [BitVec.toNat_umod, widen, BitVec.toNat_setWidth_of_le (by decide)]

include hn

theorem toNat_mod_widen_lt : (x % n.widen).toNat < 2 ^ 256 := by
  have hpos : 0 < n.toNat := Nat.pos_of_ne_zero fun h => hn (BitVec.eq_of_toNat_eq h)
  rw [toNat_mod_widen]
  exact Nat.lt_trans (Nat.mod_lt _ hpos) n.isLt

/-- Whatever is reduced, the remainder fits in the low half. -/
theorem fitsLowHalf_mod : FitsLowHalf (x % n.widen) :=
  fitsLowHalf (toNat_mod_widen_lt hn x)

omit hn

variable (a b n : Word)

theorem toNat_addMod :
    (a.addMod b n).toNat = if n = 0 then 0 else (a.toNat + b.toNat) % n.toNat := by
  unfold addMod
  by_cases hn : n = 0
  · rw [if_pos hn, if_pos hn]
    rfl
  · rw [if_neg hn, if_neg hn, (fitsLowHalf_mod hn _).same, toNat_mod_widen, widen, widen,
       toNat_setWidth_add (by decide)]

theorem toNat_mulMod :
    (a.mulMod b n).toNat = if n = 0 then 0 else a.toNat * b.toNat % n.toNat := by
  unfold mulMod
  by_cases hn : n = 0
  · rw [if_pos hn, if_pos hn]
    rfl
  · rw [if_neg hn, if_neg hn, (fitsLowHalf_mod hn _).same, toNat_mod_widen, widen, widen,
       toNat_setWidth_mul (by decide)]

end Word

open Instruction

/-- `ADDMOD` and `MULMOD` leave the remainder of the whole sum and of the whole product, and zero
for the modulus zero. The remainders in double width, by any other modulus, fit the four limbs that
are kept of them. -/
theorem modular_exact (setup : Setup) (inv : Invocation) (a b n : Word) :
    (∃ s p, (ternary .addMod).Computes setup inv [a, b, n] s ∧
      (ternary .mulMod).Computes setup inv [a, b, n] p ∧
      (s.toNat = if n = 0 then 0 else (a.toNat + b.toNat) % n.toNat) ∧
      p.toNat = if n = 0 then 0 else a.toNat * b.toNat % n.toNat) ∧
    (n ≠ 0 → Word.FitsLowHalf ((a.widen + b.widen) % n.widen) ∧
      Word.FitsLowHalf (a.widen * b.widen % n.widen)) := by
  refine ⟨⟨a.addMod b n, a.mulMod b n, ternary_computes setup inv .addMod a b n,
    ternary_computes setup inv .mulMod a b n, Word.toNat_addMod a b n, Word.toNat_mulMod a b n⟩,
    fun hn => ⟨?_, ?_⟩⟩
  · exact Word.fitsLowHalf_mod hn _
  · exact Word.fitsLowHalf_mod hn _

/-- The sum and the product of the largest word with itself, by the modulus below it. -/
theorem largestWords_reduced :
    (∃ s p, (ternary .addMod).Computes bareSetup jumpingInside
        [.allOnes 256, .allOnes 256, .allOnes 256 - 1] s ∧
      (ternary .mulMod).Computes bareSetup jumpingInside
        [.allOnes 256, .allOnes 256, .allOnes 256 - 1] p ∧ s.toNat = 2 ∧ p.toNat = 1) ∧
    (.allOnes 256 - 1 : Word) ≠ 0 ∧
    Word.FitsLowHalf (Word.widen (.allOnes 256) * Word.widen (.allOnes 256) %
      Word.widen (.allOnes 256 - 1)) := by
  have hn : (.allOnes 256 - 1 : Word) ≠ 0 := by decide
  obtain ⟨⟨s, p, hs, hp, hsum, hproduct⟩, hfits⟩ :=
    modular_exact bareSetup jumpingInside (.allOnes 256) (.allOnes 256) (.allOnes 256 - 1)
  rw [if_neg hn] at hsum hproduct
  exact ⟨⟨s, p, hs, hp, hsum.trans (by decide), hproduct.trans (by decide)⟩, hn, (hfits hn).2⟩

end SpeculativeEvm
