import SpeculativeEvm.Hash

/-!
Keccak-256 with the padding byte `0x01`. The state is five rows of five 64-bit lanes,
lane `x` of row `y` being the lane at column `x`.
-/

namespace SpeculativeEvm.Keccak

structure Row where
  a : UInt64
  b : UInt64
  c : UInt64
  d : UInt64
  e : UInt64

namespace Row

def zero : Row := ⟨0, 0, 0, 0, 0⟩

def xor (p q : Row) : Row :=
  ⟨p.a ^^^ q.a, p.b ^^^ q.b, p.c ^^^ q.c, p.d ^^^ q.d, p.e ^^^ q.e⟩

/-- Each lane flipped where the next one is clear and the one after it set. -/
def chi (r : Row) : Row :=
  ⟨r.a ^^^ (~~~r.b &&& r.c), r.b ^^^ (~~~r.c &&& r.d), r.c ^^^ (~~~r.d &&& r.e),
    r.d ^^^ (~~~r.e &&& r.a), r.e ^^^ (~~~r.a &&& r.b)⟩

end Row

structure State where
  r0 : Row
  r1 : Row
  r2 : Row
  r3 : Row
  r4 : Row

def rotl (x : UInt64) (n : UInt64) : UInt64 :=
  (x <<< n) ||| (x >>> (64 - n))

namespace State

def zero : State := ⟨.zero, .zero, .zero, .zero, .zero⟩

def xor (s t : State) : State :=
  ⟨s.r0.xor t.r0, s.r1.xor t.r1, s.r2.xor t.r2, s.r3.xor t.r3, s.r4.xor t.r4⟩

/-- Adds to each lane the parities of the column before and, turned by one, the column after. -/
def theta (s : State) : State :=
  let c := (((s.r0.xor s.r1).xor s.r2).xor s.r3).xor s.r4
  let d : Row := ⟨c.e ^^^ rotl c.b 1, c.a ^^^ rotl c.c 1, c.b ^^^ rotl c.d 1,
    c.c ^^^ rotl c.e 1, c.d ^^^ rotl c.a 1⟩
  ⟨s.r0.xor d, s.r1.xor d, s.r2.xor d, s.r3.xor d, s.r4.xor d⟩

/-- Turns every lane by its own amount and moves lane `(x, y)` to `(y, 2 x + 3 y)`. -/
def rhoPi (s : State) : State :=
  ⟨⟨s.r0.a, rotl s.r1.b 44, rotl s.r2.c 43, rotl s.r3.d 21, rotl s.r4.e 14⟩,
    ⟨rotl s.r0.d 28, rotl s.r1.e 20, rotl s.r2.a 3, rotl s.r3.b 45, rotl s.r4.c 61⟩,
    ⟨rotl s.r0.b 1, rotl s.r1.c 6, rotl s.r2.d 25, rotl s.r3.e 8, rotl s.r4.a 18⟩,
    ⟨rotl s.r0.e 27, rotl s.r1.a 36, rotl s.r2.b 10, rotl s.r3.c 15, rotl s.r4.d 56⟩,
    ⟨rotl s.r0.c 62, rotl s.r1.d 55, rotl s.r2.e 39, rotl s.r3.a 41, rotl s.r4.b 2⟩⟩

def chi (s : State) : State :=
  ⟨s.r0.chi, s.r1.chi, s.r2.chi, s.r3.chi, s.r4.chi⟩

def round (s : State) (constant : UInt64) : State :=
  let t := s.theta.rhoPi.chi
  { t with r0 := { t.r0 with a := t.r0.a ^^^ constant } }

end State

def roundConstants : List UInt64 :=
  [0x0000000000000001, 0x0000000000008082, 0x800000000000808a, 0x8000000080008000,
    0x000000000000808b, 0x0000000080000001, 0x8000000080008081, 0x8000000000008009,
    0x000000000000008a, 0x0000000000000088, 0x0000000080008009, 0x000000008000000a,
    0x000000008000808b, 0x800000000000008b, 0x8000000000008089, 0x8000000000008003,
    0x8000000000008002, 0x8000000000000080, 0x000000000000800a, 0x800000008000000a,
    0x8000000080008081, 0x8000000000008080, 0x0000000080000001, 0x8000000080008008]

def permute (s : State) : State :=
  roundConstants.foldl State.round s

/-- Bytes absorbed by one permutation. -/
def rate : Nat := 136

/-- The message, a byte `0x01`, zeros, and the top bit of the last byte of a whole block. -/
def pad (message : Bytes) : Bytes :=
  let fill := rate - message.size % rate
  if fill = 1 then message.push 0x81
  else (message.push 0x01 ++ Array.replicate (fill - 2) 0).push 0x80

/-- The lane at `offset`, least significant byte first. -/
def lane (bytes : Bytes) (offset : Nat) : UInt64 :=
  (List.range 8).foldr (fun i acc => acc <<< 8 ||| (bytes.at0 (offset + i)).toUInt64) 0

/-- The block at `offset` as a state whose last eight lanes are zero. -/
def block (bytes : Bytes) (offset : Nat) : State :=
  let l (i : Nat) := lane bytes (offset + 8 * i)
  ⟨⟨l 0, l 1, l 2, l 3, l 4⟩, ⟨l 5, l 6, l 7, l 8, l 9⟩,
    ⟨l 10, l 11, l 12, l 13, l 14⟩, ⟨l 15, l 16, 0, 0, 0⟩, .zero⟩

def absorb (message : Bytes) : State :=
  let padded := pad message
  (padded.size / rate).fold (fun i _ s => permute (s.xor (block padded (rate * i)))) .zero

def laneBytes (x : UInt64) : List UInt8 :=
  (List.range 8).map fun i => (x >>> (UInt64.ofNat (8 * i))).toUInt8

/-- The Keccak-256 hash of a message. -/
def hash (message : Bytes) : Hash :=
  let r := (absorb message).r0
  .ofBytes ([r.a, r.b, r.c, r.d].flatMap laneBytes).toArray

/-- The hash of the empty message. -/
def emptyHash : Hash := ⟨0xc5d2460186f7233c927e7db2dcc703c0e500b653ca82273b7bfad8045d85a470⟩

/-- A hasher seen from outside: only the start of its last digest shows. -/
def summary (last : Hash) : String :=
  s!"Keccak \x7b last: \"{Hex.encode (last.bytes.extract 0 4)}\" \x7d"

end SpeculativeEvm.Keccak
