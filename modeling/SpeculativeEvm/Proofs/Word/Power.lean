import Mathlib
import SpeculativeEvm.Proofs.Execute.Operand
import SpeculativeEvm.Proofs.Fetch

/-! Powers. A power is worked out by squaring the base and halving the exponent, with every product
cut to a word, and that comes to the power of the numbers cut to a word. So do the answers that are
given without multiplying. -/

namespace SpeculativeEvm

namespace Word

/-- Halving the exponent squares the base, and takes one factor if the exponent is odd. -/
theorem pow_halve (b : Word) (n : Nat) :
    b ^ n = (if n % 2 = 1 then b else 1) * (b * b) ^ (n / 2) := by
  have hsplit : b ^ n = b ^ (n % 2) * (b * b) ^ (n / 2) := by
    rw [← pow_two, ← pow_mul, ← pow_add, Nat.mod_add_div]
  rw [hsplit]
  rcases Nat.mod_two_eq_zero_or_one n with h | h
  · rw [h, pow_zero, if_neg (by decide)]
  · rw [h, pow_one, if_pos rfl]

theorem powBits_eq {bits n : Nat} (h : n < 2 ^ bits) (b : Word) : powBits bits b n = b ^ n := by
  induction bits generalizing b n with
  | zero =>
    obtain rfl : n = 0 := Nat.lt_one_iff.1 h
    exact (pow_zero b).symm
  | succ bits ih =>
    have hhalf : n / 2 < 2 ^ bits := by
      rw [Nat.pow_succ] at h
      omega
    rw [powBits, ih hhalf, pow_halve b n]
    split
    · rfl
    · rw [one_mul]

theorem pow_eq (b : Word) (n : Nat) : pow b n = b ^ n :=
  powBits_eq Nat.lt_log2_self b

theorem one_shiftLeft_eq (n : Nat) : (1 : Word) <<< n = 2 ^ n := by
  refine BitVec.eq_of_toNat_eq ?_
  rw [BitVec.toNat_shiftLeft, BitVec.toNat_pow, Nat.shiftLeft_eq]
  exact congrArg (· % 2 ^ 256) (Nat.one_mul _)

/-- The powers of two from `2 ^ 256` on leave nothing in a word. -/
theorem two_pow_eq_zero {n : Nat} (h : 256 ≤ n) : (2 : Word) ^ n = 0 := by
  refine BitVec.eq_of_toNat_eq ?_
  rw [BitVec.toNat_pow]
  exact Nat.mod_eq_zero_of_dvd (pow_dvd_pow 2 h)

/-- The powers that are answered without multiplying. The answer for the base zero is that for
exponents that are not zero, since the exponent zero is looked at first. -/
inductive Shortcut : (base exponent answer : Word) → Prop
  | exponentZero (b : Word) : Shortcut b 0 1
  | baseZero {e : Word} (he : e ≠ 0) : Shortcut 0 e 0
  | exponentOne (b : Word) : Shortcut b 1 b
  | baseOne (e : Word) : Shortcut 1 e 1
  | baseTwo (e : Word) : Shortcut 2 e (if e < 256 then (1 : Word) <<< e.toNat else 0)

theorem Shortcut.eq_pow {b e w : Word} (h : Shortcut b e w) : w = b ^ e.toNat := by
  cases h with
  | exponentZero => exact (pow_zero b).symm
  | baseZero he => exact (zero_pow fun h => he (BitVec.eq_of_toNat_eq h)).symm
  | exponentOne => exact (pow_one _).symm
  | baseOne => exact (one_pow _).symm
  | baseTwo =>
    by_cases he : e < 256
    · rw [if_pos he, one_shiftLeft_eq]
    · rw [if_neg he, two_pow_eq_zero (by simpa [BitVec.lt_def] using he)]

/-- A power is given by a shortcut or worked out. -/
theorem exp_cases (b e : Word) : Shortcut b e (exp b e) ∨ exp b e = pow b e.toNat := by
  unfold exp
  by_cases he : e = 0
  · subst he
    exact .inl (.exponentZero b)
  rw [if_neg he]
  by_cases hb : b = 0
  · subst hb
    exact .inl (.baseZero he)
  rw [if_neg hb]
  by_cases he1 : e = 1
  · subst he1
    exact .inl (.exponentOne b)
  rw [if_neg he1]
  by_cases hb1 : b = 1
  · subst hb1
    exact .inl (.baseOne e)
  rw [if_neg hb1]
  by_cases hb2 : b = 2
  · subst hb2
    exact .inl (.baseTwo e)
  · exact .inr (if_neg hb2)

theorem exp_eq (b e : Word) : exp b e = b ^ e.toNat := by
  rcases exp_cases b e with h | h
  · exact h.eq_pow
  · exact h.trans (pow_eq b e.toNat)

end Word

open Instruction

/-- `EXP` leaves the power of the numbers, cut to a word, in place of its operands, and zero to the
power zero is one. Every shortcut that applies has the answer that is also worked out, so where
several apply their order does not matter. -/
theorem exp_is_power (setup : Setup) (inv : Invocation) (b e : Word) :
    (binary .exp).Computes setup inv [b, e] (Word.exp b e) ∧
    (Word.exp b e).toNat = b.toNat ^ e.toNat % 2 ^ 256 ∧
    Word.exp b e = Word.pow b e.toNat ∧
    ∀ w, Word.Shortcut b e w → w = Word.exp b e ∧ w = Word.pow b e.toNat := by
  have hpow := Word.pow_eq b e.toNat
  have hexp := Word.exp_eq b e
  refine ⟨binary_computes setup inv .exp b e, ?_, ?_, fun w h => ⟨?_, ?_⟩⟩
  · rw [hexp, BitVec.toNat_pow]
  · rw [hexp, hpow]
  · rw [h.eq_pow, hexp]
  · rw [h.eq_pow, hpow]

/-- The powers of two are shifted up to the highest bit and are zero from there on, as they are when
they are worked out. -/
theorem powers_of_two_worked_out :
    Word.Shortcut 2 255 (.intMin 256) ∧ Word.pow 2 255 = .intMin 256 ∧
    Word.Shortcut 2 256 0 ∧ Word.pow 2 256 = 0 := by
  have hlast : Word.Shortcut 2 255 (.intMin 256) := .baseTwo 255
  have hcut : Word.Shortcut 2 256 0 := .baseTwo 256
  obtain ⟨-, -, -, hlastWorked⟩ := exp_is_power bareSetup jumpingInside 2 255
  obtain ⟨-, -, -, hcutWorked⟩ := exp_is_power bareSetup jumpingInside 2 256
  exact ⟨hlast, (hlastWorked _ hlast).2.symm, hcut, (hcutWorked _ hcut).2.symm⟩

end SpeculativeEvm
