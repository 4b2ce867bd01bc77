import SpeculativeEvm.Action
import SpeculativeEvm.Word

/-!
The memory of a frame: bytes that are zero until written, up to a limit. It grows in whole words,
cut at the limit; reading past its end yields zeros and, `load` apart, does not grow it. Ranges of
no bytes are always accepted and touch nothing.
-/

namespace SpeculativeEvm

structure Memory where
  data : Bytes
  limit : Nat
  deriving DecidableEq

namespace Memory

def empty (limit : Nat) : Memory := ⟨#[], limit⟩

def size (m : Memory) : Nat := m.data.size

/-- Why a range that is not empty is refused, if it is. -/
def refusal (limit offset size : Nat) : Option Fault :=
  if addressSpace ≤ offset + size then some .invalidMemoryAccess
  else if limit < offset + size then some (.memoryLimitExceeded (offset + size) limit)
  else none

/-- The next multiple of 32, in 64-bit arithmetic. -/
def wordAligned (n : Nat) : Nat :=
  (n + 31) / 32 * 32 % addressSpace

/-- The bytes cut or filled with zeros to a size. -/
def resize (data : Bytes) (size : Nat) : Bytes :=
  if size ≤ data.size then data.take size else data ++ Array.replicate (size - data.size) 0

/-- Makes a range that ends at `stop` part of the memory. -/
def grow (m : Memory) (stop : Nat) : Memory :=
  if m.data.size < stop then { m with data := resize m.data (min (wordAligned stop) m.limit) }
  else m

/-- Writes `size` bytes at `offset`: those of `value`, then zeros. -/
def blit (data : Bytes) (offset size : Nat) (value : Bytes) : Bytes :=
  size.fold (fun i _ acc => acc.setIfInBounds (offset + i) (value.at0 i)) data

def write (m : Memory) (offset size : Nat) (value : Bytes) : Memory :=
  let m := m.grow (offset + size)
  { m with data := blit m.data offset size value }

def expand (offset size : Nat) : Action Memory Unit := fun m =>
  if size = 0 then .ok () m
  else
    match refusal m.limit offset size with
    | some fault => .error fault m
    | none => .ok () (m.grow (offset + size))

/-- The `size` bytes at `offset`. -/
def get (offset size : Nat) : Action Memory Bytes := fun m =>
  if size = 0 then .ok #[] m
  else
    match refusal m.limit offset size with
    | some fault => .error fault m
    | none => .ok (m.data.window offset size) m

/-- Writes `value` to a range, cut or filled with zeros to its size. -/
def set (offset size : Nat) (value : Bytes) : Action Memory Unit := fun m =>
  if size = 0 then .ok () m
  else
    match refusal m.limit offset size with
    | some fault => .error fault m
    | none => .ok () (m.write offset size value)

/-- Writes the window of `source` at `start` to a range. -/
def copyFrom (offset size : Nat) (source : Bytes) (start : Nat) : Action Memory Unit := fun m =>
  if size = 0 then .ok () m
  else
    match refusal m.limit offset size with
    | some fault => .error fault m
    | none => .ok () (m.write offset size (source.window start size))

/-- Writes a word, most significant byte first. -/
def setWord (offset : Nat) (w : Word) : Action Memory Unit :=
  set offset 32 w.toBytes

def setByte (offset : Nat) (b : UInt8) : Action Memory Unit :=
  set offset 1 #[b]

/-- Reads a word, growing the memory to hold it. -/
def load (offset : Nat) : Action Memory Word := do
  expand offset 32
  return Word.ofBytes ((← MonadState.get).data.window offset 32)

end Memory

end SpeculativeEvm
