import Mathlib.Algebra.Group.Nat.Defs
import SpeculativeEvm.Instruction

/-! Word arithmetic from operations that have a domain: division, subtraction, sums in a fixed
width, bits and bytes by their index. Each function of words stays in the domains of the operations
it is made of, whatever the words, and comes to what the machine's function comes to. -/

namespace SpeculativeEvm.Checked

/-! Quantities of 64 bits. -/

def add (a b : Nat) : Option Nat := if a + b < addressSpace then some (a + b) else none

def sub (a b : Nat) : Option Nat := if b ≤ a then some (a - b) else none

def mul (a b : Nat) : Option Nat := if a * b < addressSpace then some (a * b) else none

theorem add_eq {a b : Nat} (h : a + b < addressSpace) : add a b = some (a + b) := if_pos h

theorem sub_eq {a b : Nat} (h : b ≤ a) : sub a b = some (a - b) := if_pos h

theorem mul_eq {a b : Nat} (h : a * b < addressSpace) : mul a b = some (a * b) := if_pos h

/-! Words, and their double width. -/

section

variable {width : Nat}

def sum (x y : BitVec width) : Option (BitVec width) :=
  if x.toNat + y.toNat < 2 ^ width then some (x + y) else none

def difference (x y : BitVec width) : Option (BitVec width) :=
  if y ≤ x then some (x - y) else none

def quotient (x y : BitVec width) : Option (BitVec width) :=
  if y = 0 then none else some (x / y)

def remainder (x y : BitVec width) : Option (BitVec width) :=
  if y = 0 then none else some (x % y)

end

/-- Bit `i`, the least significant one first. -/
def bit (x : Word) (i : Nat) : Option Bool :=
  if i < 256 then some (x.getLsbD i) else none

/-- Byte `i`, the least significant one first. -/
def byteAt (x : Word) (i : Nat) : Option UInt8 :=
  if i < 32 then some (UInt8.ofNat (x.toNat >>> (8 * i))) else none

def isNegative (x : Word) : Option Bool := bit x 255

def negate (x : Word) : Word := ~~~x + 1

def magnitude (x : Word) : Option Word := do
  if ← isNegative x then return negate x
  return x

def div (x y : Word) : Option Word :=
  if y = 0 then some 0 else quotient x y

def mod (x y : Word) : Option Word :=
  if y = 0 then some 0 else remainder x y

def sdiv (x y : Word) : Option Word :=
  if y = 0 then some 0
  else do
    let q ← quotient (← magnitude x) (← magnitude y)
    if (← isNegative x) ≠ (← isNegative y) then return negate q
    return q

def smod (x y : Word) : Option Word :=
  if y = 0 then some 0
  else do
    let r ← remainder (← magnitude x) (← magnitude y)
    if ← isNegative x then return negate r
    return r

def addMod (x y n : Word) : Option Word :=
  if n = 0 then some 0
  else do return Word.lowHalf (← remainder (← sum x.widen y.widen) n.widen)

/-- The product of two words always fits in double width. -/
def mulMod (x y n : Word) : Option Word :=
  if n = 0 then some 0
  else do return Word.lowHalf (← remainder (x.widen * y.widen) n.widen)

def signExtend (back num : Word) : Option Word :=
  if 31 ≤ back then some num
  else do
    let sign ← add (← mul back.toNat 8) 7
    let mask ← difference ((1 : Word) <<< (← add sign 1)) 1
    if ← bit num sign then return num ||| ~~~mask
    return num &&& mask

def byte (th value : Word) : Option Word :=
  if 32 ≤ th then some 0
  else do return BitVec.ofNat 256 (← byteAt value (← sub 31 th.toNat)).toNat

def sar (shift value : Word) : Option Word := do
  let negative ← isNegative value
  if 256 ≤ shift then return if negative then BitVec.allOnes 256 else 0
  return if negative then ~~~(~~~value >>> shift.toNat) else value >>> shift.toNat

def slt (x y : Word) : Option Bool := do
  match ← isNegative x, ← isNegative y with
  | true, false => return true
  | false, true => return false
  | _, _ => return decide (x < y)

/-- Functions of two words, those that use no operation with a domain as they are. -/
def binary : BinaryOp → Word → Word → Option Word
  | .div => div
  | .sdiv => sdiv
  | .mod => mod
  | .smod => smod
  | .signExtend => signExtend
  | .slt => fun x y => return .ofBool (← slt x y)
  | .sgt => fun x y => return .ofBool (← slt y x)
  | .byte => byte
  | .sar => sar
  | op => fun x y => some (op.apply x y)

def ternary : TernaryOp → Word → Word → Word → Option Word
  | .addMod => addMod
  | .mulMod => mulMod

theorem isNegative_eq (x : Word) : isNegative x = some x.msb := by
  rw [isNegative, bit, if_pos (by decide), BitVec.msb_eq_getLsbD_last]

theorem negate_eq (x : Word) : negate x = -x := BitVec.neg_eq_not_add x |>.symm

theorem magnitude_eq (x : Word) : magnitude x = some (Word.magnitude x) := by
  rw [magnitude, isNegative_eq, Word.magnitude]
  cases x.msb <;> simp [negate_eq]

/-- The magnitude of a word that is not zero is not zero. -/
theorem magnitude_ne_zero {x : Word} (h : x ≠ 0) : Word.magnitude x ≠ 0 := by
  unfold Word.magnitude
  cases x.msb
  · simpa using h
  · simpa using h

theorem quotient_eq {width : Nat} {x y : BitVec width} (h : y ≠ 0) :
    quotient x y = some (x / y) := if_neg h

theorem remainder_eq {width : Nat} {x y : BitVec width} (h : y ≠ 0) :
    remainder x y = some (x % y) := if_neg h

theorem div_eq (x y : Word) : div x y = some (x.div y) := by
  unfold div Word.div
  by_cases h : y = 0
  · rw [if_pos h, if_pos h]
  · rw [if_neg h, if_neg h, quotient_eq h]

theorem mod_eq (x y : Word) : mod x y = some (x.mod y) := by
  unfold mod Word.mod
  by_cases h : y = 0
  · rw [if_pos h, if_pos h]
  · rw [if_neg h, if_neg h, remainder_eq h]

theorem sdiv_eq (x y : Word) : sdiv x y = some (Word.sdiv x y) := by
  unfold sdiv Word.sdiv
  by_cases h : y = 0
  · rw [if_pos h, if_pos h]
  · rw [if_neg h, if_neg h, magnitude_eq, magnitude_eq]
    simp only [Option.bind_eq_bind, Option.bind_some, quotient_eq (magnitude_ne_zero h),
      isNegative_eq, negate_eq]
    split <;> rfl

theorem smod_eq (x y : Word) : smod x y = some (Word.smod x y) := by
  unfold smod Word.smod
  by_cases h : y = 0
  · rw [if_pos h, if_pos h]
  · rw [if_neg h, if_neg h, magnitude_eq, magnitude_eq]
    simp only [Option.bind_eq_bind, Option.bind_some, remainder_eq (magnitude_ne_zero h),
      isNegative_eq, negate_eq]
    split <;> rfl

section Widen

variable {narrow wide : Nat}

theorem setWidth_ne_zero (h : narrow ≤ wide) {n : BitVec narrow} (hn : n ≠ 0) :
    n.setWidth wide ≠ 0 := by
  intro hz
  refine hn (BitVec.eq_of_toNat_eq ?_)
  have hzero := congrArg BitVec.toNat hz
  rw [BitVec.toNat_setWidth_of_le h] at hzero
  exact hzero.trans (by simp)

/-- Two numbers have a sum in a larger width. -/
theorem toNat_add_lt (h : narrow < wide) (x y : BitVec narrow) : x.toNat + y.toNat < 2 ^ wide := by
  have hcarry : 2 ^ narrow + 2 ^ narrow ≤ 2 ^ wide := by
    rw [← Nat.two_mul, ← Nat.pow_succ']
    exact Nat.pow_le_pow_right (by decide) h
  exact Nat.lt_of_lt_of_le (Nat.add_lt_add x.isLt y.isLt) hcarry

theorem sum_setWidth (h : narrow < wide) (x y : BitVec narrow) :
    sum (x.setWidth wide) (y.setWidth wide) = some (x.setWidth wide + y.setWidth wide) := by
  refine if_pos ?_
  rw [BitVec.toNat_setWidth_of_le (Nat.le_of_lt h), BitVec.toNat_setWidth_of_le (Nat.le_of_lt h)]
  exact toNat_add_lt h x y

end Widen

theorem sum_widen (x y : Word) : sum x.widen y.widen = some (x.widen + y.widen) :=
  sum_setWidth (by decide) x y

theorem widen_ne_zero {n : Word} (h : n ≠ 0) : n.widen ≠ 0 := setWidth_ne_zero (by decide) h

theorem addMod_eq (x y n : Word) : addMod x y n = some (x.addMod y n) := by
  unfold addMod Word.addMod
  by_cases h : n = 0
  · rw [if_pos h, if_pos h]
  · rw [if_neg h, if_neg h, sum_widen]
    simp only [Option.bind_eq_bind, Option.bind_some, remainder_eq (widen_ne_zero h)]
    rfl

theorem mulMod_eq (x y n : Word) : mulMod x y n = some (x.mulMod y n) := by
  unfold mulMod Word.mulMod
  by_cases h : n = 0
  · rw [if_pos h, if_pos h]
  · rw [if_neg h, if_neg h, remainder_eq (widen_ne_zero h)]
    rfl

section SignExtend

variable {width : Nat}

theorem toNat_one_shiftLeft (h : width < 256) : ((1 : Word) <<< width).toNat = 2 ^ width := by
  have htwo : (1 : Word) <<< width = BitVec.twoPow 256 width := (BitVec.twoPow_eq 256 width).symm
  rw [htwo, BitVec.toNat_twoPow_of_lt h]

/-- The mask of the low bits, with no borrow. -/
theorem mask_eq (h : width < 256) :
    difference ((1 : Word) <<< width) 1 = some (BitVec.ofNat 256 (2 ^ width - 1)) := by
  have hpos : 0 < 2 ^ width := Nat.two_pow_pos width
  have hlt : 2 ^ width < 2 ^ 256 := Nat.pow_lt_pow_right (by decide) h
  have hle : 1 ≤ (1 : Word) <<< width := by
    rw [BitVec.le_def, toNat_one_shiftLeft h]
    exact hpos
  rw [difference, if_pos hle]
  refine congrArg some (BitVec.eq_of_toNat_eq ?_)
  rw [BitVec.toNat_sub_of_le hle, toNat_one_shiftLeft h, BitVec.toNat_ofNat, Nat.mod_eq_of_lt]
  · rfl
  · omega

theorem getLsbD_mask (h : width < 256) (i : Nat) :
    (BitVec.ofNat 256 (2 ^ width - 1)).getLsbD i = decide (i < width) := by
  rw [BitVec.getLsbD_ofNat, Nat.testBit_two_pow_sub_one]
  by_cases hi : i < width
  · simp [hi, Nat.lt_trans hi h]
  · simp [hi]

/-- Above its lowest bits, the extended word repeats the last of them. -/
theorem signExtend_bits (num : Word) (h : width + 1 < 256) :
    (num.setWidth (width + 1)).signExtend 256 =
      if num.getLsbD width then num ||| ~~~BitVec.ofNat 256 (2 ^ (width + 1) - 1)
      else num &&& BitVec.ofNat 256 (2 ^ (width + 1) - 1) := by
  refine BitVec.eq_of_getLsbD_eq fun i hi => ?_
  have hmsb : (num.setWidth (width + 1)).msb = num.getLsbD width := by
    simp [BitVec.msb_eq_getLsbD_last]
  have hmask := getLsbD_mask h i
  rw [BitVec.getLsbD_signExtend, hmsb]
  by_cases hlow : i < width + 1
  · rw [decide_eq_true hlow] at hmask
    cases num.getLsbD width <;>
      simp [-BitVec.getLsbD_eq_getElem, hmask, hi, hlow]
  · rw [decide_eq_false hlow] at hmask
    cases num.getLsbD width <;>
      simp [-BitVec.getLsbD_eq_getElem, hmask, hi, hlow]

end SignExtend

theorem signExtend_eq (back num : Word) :
    signExtend back num = some (Word.signExtend back num) := by
  unfold signExtend Word.signExtend
  by_cases h : 31 ≤ back
  · rw [if_pos h, if_neg (by simpa using h)]
  · have hback : back.toNat < 31 := by simpa [BitVec.le_def] using h
    have hwidth : 8 * (back.toNat + 1) = back.toNat * 8 + 7 + 1 := by omega
    have hsize : addressSpace = 2 ^ 64 := rfl
    rw [if_neg h, if_pos (by simpa using h), hwidth, signExtend_bits num (by omega),
      mul_eq (by omega)]
    simp only [Option.bind_eq_bind, Option.bind_some]
    rw [add_eq (by omega)]
    simp only [Option.bind_some]
    rw [add_eq (by omega)]
    simp only [Option.bind_some]
    rw [mask_eq (by omega), bit, if_pos (by omega)]
    simp only [Option.bind_some]
    cases num.getLsbD (back.toNat * 8 + 7) <;> rfl

theorem byte_eq (th value : Word) : byte th value = some (th.byte value) := by
  unfold byte Word.byte
  by_cases h : 32 ≤ th
  · rw [if_pos h, if_neg (by simpa using h)]
  · have hth : th.toNat < 32 := by simpa [BitVec.le_def] using h
    rw [if_neg h, if_pos (by simpa using h), sub_eq (by omega)]
    simp only [Option.bind_eq_bind, Option.bind_some, byteAt,
      if_pos (show 31 - th.toNat < 32 by omega)]
    refine congrArg some (BitVec.eq_of_toNat_eq ?_)
    have hbyte : (0xff : Word).toNat = 2 ^ 8 - 1 := rfl
    rw [BitVec.toNat_and, BitVec.toNat_ushiftRight, hbyte, Nat.and_two_pow_sub_one_eq_mod,
      BitVec.toNat_ofNat, UInt8.toNat_ofNat']
    omega

/-- Shifted so far that only copies of the sign are left. -/
theorem sshiftRight_255 (value : Word) :
    value.sshiftRight 255 = if value.msb then BitVec.allOnes 256 else 0 := by
  refine BitVec.eq_of_getLsbD_eq fun i hi => ?_
  have hsign : value.getLsbD 255 = value.msb := (BitVec.msb_eq_getLsbD_last value).symm
  rw [BitVec.getLsbD_sshiftRight]
  by_cases h0 : i = 0
  · subst h0
    cases hm : value.msb <;> simp [-BitVec.getLsbD_eq_getElem, hsign, hm]
  · have hbeyond : ¬ 255 + i < 256 := by omega
    rw [if_neg hbeyond]
    cases value.msb
    · simp [-BitVec.getLsbD_eq_getElem]
    · rw [if_pos rfl, BitVec.getLsbD_allOnes]
      simp [hi]

theorem sshiftRight_eq (value : Word) (n : Nat) :
    value.sshiftRight n = if value.msb then ~~~(~~~value >>> n) else value >>> n := by
  cases hsign : value.msb with
  | false => exact BitVec.sshiftRight_eq_of_msb_false hsign
  | true => exact BitVec.sshiftRight_eq_of_msb_true hsign

theorem sar_eq (shift value : Word) : sar shift value = some (Word.sar shift value) := by
  unfold sar Word.sar
  rw [isNegative_eq]
  simp only [Option.bind_eq_bind, Option.bind_some]
  by_cases h : 256 ≤ shift
  · have hlt : ¬ shift < 256 := by simpa using h
    rw [if_pos h, if_neg hlt, sshiftRight_255]
    rfl
  · have hlt : shift < 256 := by simpa using h
    rw [if_neg h, if_pos hlt, sshiftRight_eq]
    rfl

theorem slt_eq (x y : Word) : slt x y = some (Word.slt x y) := by
  unfold slt Word.slt
  rw [isNegative_eq, isNegative_eq]
  cases x.msb <;> cases y.msb <;> rfl

/-- Whatever the words, no operation leaves its domain. -/
theorem binary_eq (op : BinaryOp) (x y : Word) : binary op x y = some (op.apply x y) := by
  cases op with
  | div => exact div_eq x y
  | sdiv => exact sdiv_eq x y
  | mod => exact mod_eq x y
  | smod => exact smod_eq x y
  | signExtend => exact signExtend_eq x y
  | byte => exact byte_eq x y
  | sar => exact sar_eq x y
  | slt | sgt =>
    simp only [binary, slt_eq]
    rfl
  | _ => rfl

theorem ternary_eq (op : TernaryOp) (x y n : Word) : ternary op x y n = some (op.apply x y n) := by
  cases op with
  | addMod => exact addMod_eq x y n
  | mulMod => exact mulMod_eq x y n

end SpeculativeEvm.Checked
