import SpeculativeEvm.Word.Operation

/-!
The instruction set and the code byte of each instruction. Instructions that differ only in the
word function, the quantity or the account property they use share a constructor.
-/

namespace SpeculativeEvm

inductive UnaryOp
  | isZero | not
  deriving DecidableEq

inductive BinaryOp
  | add | mul | sub | div | sdiv | mod | smod | exp | signExtend
  | lt | gt | slt | sgt | eq | and | or | xor | byte | shl | shr | sar
  deriving DecidableEq

inductive TernaryOp
  | addMod | mulMod
  deriving DecidableEq

/-- Words of the frame and its surroundings that can be pushed. -/
inductive Quantity
  | address | origin | caller | callValue | callDataSize | codeSize | gasPrice | returnDataSize
  | coinbase | timestamp | number | difficulty | gasLimit | chainId
  | programCounter | memorySize | gas
  deriving DecidableEq

/-- Properties of an account given by its address. -/
inductive AccountQuery
  | balance | codeSize | codeHash
  deriving DecidableEq

/-- Byte strings of the frame that can be copied to memory. -/
inductive FrameData
  | callData | code
  deriving DecidableEq

inductive CallKind
  | call | callCode | delegateCall | staticCall
  deriving DecidableEq

inductive Instruction
  | stop
  | unary (op : UnaryOp)
  | binary (op : BinaryOp)
  | ternary (op : TernaryOp)
  | keccak
  | quantity (q : Quantity)
  | account (query : AccountQuery)
  | selfBalance
  | blockHash
  | callDataLoad
  | copy (source : FrameData)
  | extCodeCopy
  | returnDataCopy
  | pop
  | mload
  | mstore
  | mstore8
  | sload
  | sstore
  | jump
  | jumpIf
  | jumpDest
  /-- Pushes the number in the next `size` code bytes. -/
  | push (size : Nat)
  | dup (place : Nat)
  | swap (place : Nat)
  | log (topics : Nat)
  | create
  | saltedCreate
  | call (kind : CallKind)
  | ret
  | revert
  | invalid
  | selfDestruct
  | undefined (byte : UInt8)
  deriving DecidableEq

def UnaryOp.apply : UnaryOp → Word → Word
  | isZero, x => .ofBool (x = 0)
  | not, x => ~~~x

/-- The first argument is the top of the stack. -/
def BinaryOp.apply : BinaryOp → Word → Word → Word
  | add, x, y => x + y
  | mul, x, y => x * y
  | sub, x, y => x - y
  | div, x, y => x.div y
  | sdiv, x, y => Word.sdiv x y
  | mod, x, y => x.mod y
  | smod, x, y => Word.smod x y
  | exp, x, y => x.exp y
  | signExtend, x, y => Word.signExtend x y
  | lt, x, y => .ofBool (x < y)
  | gt, x, y => .ofBool (y < x)
  | slt, x, y => .ofBool (Word.slt x y)
  | sgt, x, y => .ofBool (Word.sgt x y)
  | eq, x, y => .ofBool (x = y)
  | and, x, y => x &&& y
  | or, x, y => x ||| y
  | xor, x, y => x ^^^ y
  | byte, x, y => x.byte y
  | shl, x, y => x.shl y
  | shr, x, y => x.shr y
  | sar, x, y => x.sar y

def TernaryOp.apply : TernaryOp → Word → Word → Word → Word
  | addMod, x, y, n => x.addMod y n
  | mulMod, x, y, n => x.mulMod y n

/-- Whether the call takes a value operand. -/
def CallKind.hasValue : CallKind → Bool
  | call => true
  | callCode => true
  | delegateCall => false
  | staticCall => false

namespace Instruction

/-- Instructions that are alone in their row of the code table, by their byte. -/
def ofByte (b : UInt8) : Instruction :=
  match b with
  | 0x00 => stop
  | 0x01 => binary .add
  | 0x02 => binary .mul
  | 0x03 => binary .sub
  | 0x04 => binary .div
  | 0x05 => binary .sdiv
  | 0x06 => binary .mod
  | 0x07 => binary .smod
  | 0x08 => ternary .addMod
  | 0x09 => ternary .mulMod
  | 0x0a => binary .exp
  | 0x0b => binary .signExtend
  | 0x10 => binary .lt
  | 0x11 => binary .gt
  | 0x12 => binary .slt
  | 0x13 => binary .sgt
  | 0x14 => binary .eq
  | 0x15 => unary .isZero
  | 0x16 => binary .and
  | 0x17 => binary .or
  | 0x18 => binary .xor
  | 0x19 => unary .not
  | 0x1a => binary .byte
  | 0x1b => binary .shl
  | 0x1c => binary .shr
  | 0x1d => binary .sar
  | 0x20 => keccak
  | 0x30 => quantity .address
  | 0x31 => account .balance
  | 0x32 => quantity .origin
  | 0x33 => quantity .caller
  | 0x34 => quantity .callValue
  | 0x35 => callDataLoad
  | 0x36 => quantity .callDataSize
  | 0x37 => copy .callData
  | 0x38 => quantity .codeSize
  | 0x39 => copy .code
  | 0x3a => quantity .gasPrice
  | 0x3b => account .codeSize
  | 0x3c => extCodeCopy
  | 0x3d => quantity .returnDataSize
  | 0x3e => returnDataCopy
  | 0x3f => account .codeHash
  | 0x40 => blockHash
  | 0x41 => quantity .coinbase
  | 0x42 => quantity .timestamp
  | 0x43 => quantity .number
  | 0x44 => quantity .difficulty
  | 0x45 => quantity .gasLimit
  | 0x46 => quantity .chainId
  | 0x47 => selfBalance
  | 0x50 => pop
  | 0x51 => mload
  | 0x52 => mstore
  | 0x53 => mstore8
  | 0x54 => sload
  | 0x55 => sstore
  | 0x56 => jump
  | 0x57 => jumpIf
  | 0x58 => quantity .programCounter
  | 0x59 => quantity .memorySize
  | 0x5a => quantity .gas
  | 0x5b => jumpDest
  | 0xf0 => create
  | 0xf1 => call .call
  | 0xf2 => call .callCode
  | 0xf3 => ret
  | 0xf4 => call .delegateCall
  | 0xf5 => saltedCreate
  | 0xfa => call .staticCall
  | 0xfd => revert
  | 0xfe => invalid
  | 0xff => selfDestruct
  | _ => undefined b

/-- The instruction of a code byte. -/
def decode (b : UInt8) : Instruction :=
  if 0x5f ≤ b ∧ b ≤ 0x7f then push (b.toNat - 0x5f)
  else if 0x80 ≤ b ∧ b ≤ 0x8f then dup (b.toNat - 0x7f)
  else if 0x90 ≤ b ∧ b ≤ 0x9f then swap (b.toNat - 0x8f)
  else if 0xa0 ≤ b ∧ b ≤ 0xa4 then log (b.toNat - 0xa0)
  else ofByte b

def isDefined : Instruction → Bool
  | undefined _ => false
  | _ => true

/-- The number of code bytes after the instruction's own that belong to it. -/
def immediateSize : Instruction → Nat
  | push size => size
  | _ => 0

/-- The word copied by a `DUP`, counted from the top, and zero otherwise. -/
def dupPlace : Instruction → Nat
  | dup place => place
  | _ => 0

/-- How far below the top a `SWAP` reaches, and zero otherwise. -/
def swapPlace : Instruction → Nat
  | swap place => place
  | _ => 0

def logTopics? : Instruction → Option Nat
  | log topics => topics
  | _ => none

end Instruction

end SpeculativeEvm
