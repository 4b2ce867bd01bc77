import SpeculativeEvm.Bytes

/-!
The 256-bit machine word and its readings: as a number, as 32 bytes, as a 64-bit quantity that
saturates, and as an index that must fit in 64 bits.
-/

namespace SpeculativeEvm

abbrev Word := BitVec 256

/-- One more than the largest index or length the machine can address. -/
def addressSpace : Nat := UInt64.size

namespace Word

/-- The word of a number below `2 ^ 256`. -/
def ofNat? (n : Nat) : Option Word :=
  if n ≤ (BitVec.allOnes 256).toNat then some (BitVec.ofNat 256 n) else none

/-- The word of a byte string; of a long one the last 32 bytes count. -/
def ofBytes (bytes : Bytes) : Word :=
  BitVec.ofNat 256 bytes.toNat

def toBytes (w : Word) : Bytes :=
  Bytes.ofNat 32 w.toNat

def ofBool (b : Bool) : Word :=
  if b then 1 else 0

def ofUInt64 (n : UInt64) : Word :=
  BitVec.ofNat 256 n.toNat

/-- The word as a 64-bit quantity, the largest one when it does not fit. -/
def saturate (w : Word) : UInt64 :=
  if w.toNat < addressSpace then UInt64.ofNat w.toNat else UInt64.ofNat (addressSpace - 1)

/-- The word as an index or length, when it fits in 64 bits. -/
def index? (w : Word) : Option Nat :=
  if w.toNat < addressSpace then some w.toNat else none

/-- The least significant byte. -/
def lowByte (w : Word) : UInt8 :=
  UInt8.ofNat w.toNat

end Word

end SpeculativeEvm
