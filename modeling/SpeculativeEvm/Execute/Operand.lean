import SpeculativeEvm.Execute.Span
import SpeculativeEvm.Machine

/-!
Instructions that work on the operand stack, the frame's own data and its memory.
-/

namespace SpeculativeEvm.Execute

open Machine

variable {σ : Type}

/-- Replaces the top word by a function of it. -/
def unary (f : Word → Word) : Action (Machine σ) Control := do
  let x ← onStack Stack.peek
  onStack (Stack.poke (f x))
  return .next

/-- Replaces the top two words by a function of the top and the second. -/
def binary (f : Word → Word → Word) : Action (Machine σ) Control := do
  let x ← onStack Stack.pop
  let y ← onStack Stack.peek
  onStack (Stack.poke (f x y))
  return .next

def ternary (f : Word → Word → Word → Word) : Action (Machine σ) Control := do
  let x ← onStack Stack.pop
  let y ← onStack Stack.pop
  let n ← onStack Stack.peek
  onStack (Stack.poke (f x y n))
  return .next

def pushWord (w : Word) : Action (Machine σ) Control := do
  onStack (Stack.push w)
  return .next

/-- Return data is not kept, and one word is what its size is taken to be. -/
def returnDataSizeStandIn : Word := 32

def quantityOf (setup : Setup) (inv : Invocation) (frame : Frame) : Quantity → Except Fault Word
  | .address => .ok inv.address.toWord
  | .origin => .ok setup.env.origin.toWord
  | .caller => .ok inv.caller.toWord
  | .callValue => .ok inv.value
  | .callDataSize => .ok (BitVec.ofNat 256 inv.input.size)
  | .codeSize => .ok (BitVec.ofNat 256 inv.code.size)
  | .gasPrice => fitWord "gas price" setup.env.gasPrice
  | .returnDataSize => .ok returnDataSizeStandIn
  | .coinbase => .ok setup.env.block.coinbase.toWord
  | .timestamp => .ok (.ofUInt64 setup.env.block.timestamp)
  | .number => .ok (.ofUInt64 setup.env.block.number)
  | .difficulty => fitWord "difficulty" setup.env.block.difficulty
  | .gasLimit => .ok (.ofUInt64 setup.env.block.gasLimit)
  | .chainId => .ok (.ofUInt64 setup.env.chainId)
  | .programCounter => .ok (BitVec.ofNat 256 frame.pc)
  | .memorySize => .ok (BitVec.ofNat 256 frame.memory.size)
  | .gas => .ok (.ofUInt64 setup.settings.gasStandIn)

def quantity (setup : Setup) (inv : Invocation) (q : Quantity) : Action (Machine σ) Control := do
  let w ← check (quantityOf setup inv (← get).frame q)
  pushWord w

/-- The hash of one of the 256 blocks before this one, zero for any other number. -/
def blockHash (block : Block) : Action (Machine σ) Control :=
  unary fun n =>
    if block.inHashWindow n.saturate then (block.hashOf n.saturate).toWord else 0

def callDataLoad (inv : Invocation) : Action (Machine σ) Control :=
  unary fun start => .ofBytes (inv.input.window start.saturate.toNat 32)

def frameData (inv : Invocation) : FrameData → Bytes
  | .callData => inv.input
  | .code => inv.code.bytes

/-- Writes a window of `data` to memory; past the end of `data` there are zeros. -/
def copyToMemory (data : Bytes) (target : Span) (start : Word) : Action (Machine σ) Unit :=
  onMemory (Memory.copyFrom target.offset target.size data start.saturate.toNat)

def copy (inv : Invocation) (source : FrameData) : Action (Machine σ) Control := do
  let ⟨⟨[offset, start, size]⟩, _⟩ ← onStack (Stack.popN 3)
  let target ← check (spanOf offset size)
  copyToMemory (frameData inv source) target start
  return .next

/-- Takes its operands and copies nothing. -/
def returnDataCopy : Action (Machine σ) Control := do
  discard <| onStack (Stack.popN 3)
  return .next

/-- Hashes a range of memory. -/
def keccak : Action (Machine σ) Control := do
  let offset ← onStack Stack.pop
  let size ← onStack Stack.peek
  let source ← check (spanOf offset size)
  let data ← onMemory (Memory.get source.offset source.size)
  onStack (Stack.poke (Keccak.hash data).toWord)
  return .next

def mload : Action (Machine σ) Control := do
  let offset ← check (indexOf (← onStack Stack.peek))
  let w ← onMemory (Memory.load offset)
  onStack (Stack.poke w)
  return .next

def mstore : Action (Machine σ) Control := do
  let ⟨⟨[offset, w]⟩, _⟩ ← onStack (Stack.popN 2)
  let offset ← check (indexOf offset)
  onMemory (Memory.setWord offset w)
  return .next

def mstore8 : Action (Machine σ) Control := do
  let ⟨⟨[offset, w]⟩, _⟩ ← onStack (Stack.popN 2)
  let offset ← check (indexOf offset)
  onMemory (Memory.setByte offset w.lowByte)
  return .next

def pop : Action (Machine σ) Control := do
  discard <| onStack Stack.pop
  return .next

/-- The number in the `size` code bytes after `pc`, of which those past the end are zero. -/
def immediate (code : Bytes) (pc size : Nat) : Word :=
  .ofBytes (code.window (pc + 1) size)

/-- Pushes the immediate and moves to its last byte. -/
def push (inv : Invocation) (size : Nat) : Action (Machine σ) Control := do
  let pc ← Machine.pc
  onStack (Stack.push (immediate inv.code.bytes pc size))
  setPc (pc + size)
  return .next

def dup (place : Nat) : Action (Machine σ) Control := do
  onStack (Stack.dup place)
  return .next

def swap (place : Nat) : Action (Machine σ) Control := do
  onStack (Stack.swap place)
  return .next

/-- Takes words one by one. -/
def drop : Nat → Action (Machine σ) Unit
  | 0 => return
  | n + 1 => do
    discard <| onStack Stack.pop
    drop n

/-- Takes offset, size and topics; logs are not kept. -/
def log (topics : Nat) : Action (Machine σ) Control := do
  drop (topics + 2)
  return .next

/-- Jumps to a jump destination and otherwise goes on. -/
def jumpTo (code : Code) (dest : Word) : Control :=
  match code.jumpTarget dest with
  | some i => .jump i
  | none => .next

def jump (inv : Invocation) : Action (Machine σ) Control := do
  return jumpTo inv.code (← onStack Stack.pop)

/-- Takes the condition and does not look at it, so that a jump is always taken if it can be. -/
def jumpIf (inv : Invocation) : Action (Machine σ) Control := do
  let ⟨⟨[dest, _]⟩, _⟩ ← onStack (Stack.popN 2)
  return jumpTo inv.code dest

end SpeculativeEvm.Execute
