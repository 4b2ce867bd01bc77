/-!
Byte strings. A byte string denotes a number in base 256, most significant byte first, and
extends to the right by zeros without end: `window` reads any range of that extension.
-/

namespace SpeculativeEvm

abbrev Bytes := Array UInt8

namespace Bytes

/-- The number a byte string denotes, most significant byte first. -/
def toNat (bytes : Bytes) : Nat :=
  bytes.foldl (fun acc b => acc * 256 + b.toNat) 0

/-- The last `width` base-256 digits of `n`, most significant first. -/
def ofNat (width n : Nat) : Bytes :=
  Array.ofFn fun i : Fin width => UInt8.ofNat (n >>> (8 * (width - 1 - i)))

/-- The number of bytes of `n` without leading zeros; zero has none. -/
def byteLength (n : Nat) : Nat :=
  if n = 0 then 0 else n.log2 / 8 + 1

/-- `n` without leading zero bytes. -/
def ofNatMinimal (n : Nat) : Bytes :=
  ofNat (byteLength n) n

/-- The byte at `i`, zero past the end. -/
def at0 (bytes : Bytes) (i : Nat) : UInt8 :=
  bytes[i]?.getD 0

/-- `size` bytes from `start`, zero past the end. -/
def window (bytes : Bytes) (start size : Nat) : Bytes :=
  Array.ofFn fun i : Fin size => bytes.at0 (start + i)

@[simp] theorem size_ofNat (width n : Nat) : (ofNat width n).size = width := by
  simp [ofNat]

@[simp] theorem size_window (bytes : Bytes) (start size : Nat) :
    (bytes.window start size).size = size := by
  simp [window]

theorem at0_window (bytes : Bytes) (start size i : Nat) :
    (bytes.window start size).at0 i = if i < size then bytes.at0 (start + i) else 0 := by
  by_cases h : i < size <;> simp [window, at0, h]

end Bytes

end SpeculativeEvm
