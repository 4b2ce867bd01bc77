import SpeculativeEvm.Word

/-!
Word arithmetic. Division by zero yields zero throughout; `addMod` and `mulMod` reduce in double
width, so no intermediate carry is lost; shifts by 256 or more leave only copies of the fill bit.
-/

namespace SpeculativeEvm.Word

def div (x y : Word) : Word :=
  if y = 0 then 0 else x / y

def mod (x y : Word) : Word :=
  if y = 0 then 0 else x % y

/-- The distance of the two's-complement number from zero, as an unsigned number. -/
def magnitude (x : Word) : Word :=
  if x.msb then -x else x

/-- Two's-complement quotient, truncated toward zero: that of the magnitudes, negated if the signs
differ. -/
def sdiv (x y : Word) : Word :=
  if y = 0 then 0
  else
    let quotient := x.magnitude / y.magnitude
    if x.msb ≠ y.msb then -quotient else quotient

/-- Two's-complement remainder with the sign of `x`. -/
def smod (x y : Word) : Word :=
  if y = 0 then 0
  else
    let remainder := x.magnitude % y.magnitude
    if x.msb then -remainder else remainder

/-- A word in double width. -/
def widen (x : Word) : BitVec 512 :=
  x.setWidth 512

/-- The low half of a double-width number. -/
def lowHalf (x : BitVec 512) : Word :=
  x.setWidth 256

def addMod (x y n : Word) : Word :=
  if n = 0 then 0 else lowHalf ((widen x + widen y) % widen n)

def mulMod (x y n : Word) : Word :=
  if n = 0 then 0 else lowHalf ((widen x * widen y) % widen n)

/-- `base ^ exponent` for an exponent of at most `bits` bits, by repeated squaring. -/
def powBits : (bits : Nat) → (base : Word) → (exponent : Nat) → Word
  | 0, _, _ => 1
  | bits + 1, base, exponent =>
    let rest := powBits bits (base * base) (exponent / 2)
    if exponent % 2 = 1 then base * rest else rest

def pow (base : Word) (exponent : Nat) : Word :=
  powBits (exponent.log2 + 1) base exponent

/-- Powers, with the cheap cases answered without multiplying. -/
def exp (base exponent : Word) : Word :=
  if exponent = 0 then 1
  else if base = 0 then 0
  else if exponent = 1 then base
  else if base = 1 then 1
  else if base = 2 then
    if exponent < 256 then (1 : Word) <<< exponent.toNat else 0
  else pow base exponent.toNat

/-- Extends the sign of the number in the low `back + 1` bytes. -/
def signExtend (back num : Word) : Word :=
  if back < 31 then (num.setWidth (8 * (back.toNat + 1))).signExtend 256 else num

/-- Byte `th` of the word, counted from the most significant. -/
def byte (th value : Word) : Word :=
  if th < 32 then (value >>> (8 * (31 - th.toNat))) &&& 0xff else 0

def shl (shift value : Word) : Word :=
  if shift < 256 then value <<< shift.toNat else 0

def shr (shift value : Word) : Word :=
  if shift < 256 then value >>> shift.toNat else 0

/-- Arithmetic shift right: the sign bit fills from the left. -/
def sar (shift value : Word) : Word :=
  value.sshiftRight (if shift < 256 then shift.toNat else 255)

/-- Words of different signs are in the order of their signs, others in that of unsigned words. -/
def slt (x y : Word) : Bool :=
  match x.msb, y.msb with
  | true, false => true
  | false, true => false
  | _, _ => x < y

def sgt (x y : Word) : Bool := slt y x

end SpeculativeEvm.Word
