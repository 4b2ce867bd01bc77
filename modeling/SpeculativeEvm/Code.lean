import SpeculativeEvm.Instruction

/-!
Contract code and its jump destinations. The code is swept from its start, each instruction taking
its own byte and its immediate bytes; the destinations are the `JUMPDEST` bytes the sweep meets, so
bytes inside an immediate are none.
-/

namespace SpeculativeEvm

namespace Code

/-- The byte of the instruction that marks a jump destination. -/
def jumpDestByte : UInt8 := 0x5b

/-- The number of bytes of the instruction that starts with `b`. -/
def stride (b : UInt8) : Nat :=
  (Instruction.decode b).immediateSize + 1

/-- Appends a mark for each byte, the first `skip` of which belong to an immediate. -/
def sweep (marks : Array Bool) : (skip : Nat) → List UInt8 → Array Bool
  | _, [] => marks
  | skip + 1, _ :: rest => sweep (marks.push false) skip rest
  | 0, b :: rest => sweep (marks.push (b = jumpDestByte)) (Instruction.decode b).immediateSize rest

/-- For each byte, whether it is a jump destination. -/
def destinations (bytes : Bytes) : Array Bool :=
  sweep #[] 0 bytes.toList

/-- The starts of instructions: the first byte, and from each start the next one. -/
inductive Boundary (bytes : Bytes) : Nat → Prop
  | zero : Boundary bytes 0
  | next {i : Nat} (h : i < bytes.size) :
    Boundary bytes i → Boundary bytes (i + stride bytes[i])

end Code

/-- Code with its jump destinations worked out. -/
structure Code where
  bytes : Bytes
  marks : Array Bool
  marks_eq : marks = Code.destinations bytes

namespace Code

def ofBytes (bytes : Bytes) : Code := ⟨bytes, destinations bytes, rfl⟩

def size (c : Code) : Nat := c.bytes.size

/-- The offset a jump to `dest` leads to, if it is a jump destination. -/
def jumpTarget (c : Code) (dest : Word) : Option Nat :=
  dest.index?.filter fun i => c.marks[i]?.getD false

def isJumpable (c : Code) (dest : Word) : Bool :=
  (c.jumpTarget dest).isSome

end Code

end SpeculativeEvm
