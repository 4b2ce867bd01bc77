import SpeculativeEvm.Instruction
import SpeculativeEvm.Text.Hex

/-!
The mnemonics of instructions. A code byte without an instruction is written in hexadecimal.
-/

namespace SpeculativeEvm

def UnaryOp.mnemonic : UnaryOp → String
  | isZero => "ISZERO"
  | not => "NOT"

def BinaryOp.mnemonic : BinaryOp → String
  | add => "ADD"
  | mul => "MUL"
  | sub => "SUB"
  | div => "DIV"
  | sdiv => "SDIV"
  | mod => "MOD"
  | smod => "SMOD"
  | exp => "EXP"
  | signExtend => "SIGNEXTEND"
  | lt => "LT"
  | gt => "GT"
  | slt => "SLT"
  | sgt => "SGT"
  | eq => "EQ"
  | and => "AND"
  | or => "OR"
  | xor => "XOR"
  | byte => "BYTE"
  | shl => "SHL"
  | shr => "SHR"
  | sar => "SAR"

def TernaryOp.mnemonic : TernaryOp → String
  | addMod => "ADDMOD"
  | mulMod => "MULMOD"

def Quantity.mnemonic : Quantity → String
  | address => "ADDRESS"
  | origin => "ORIGIN"
  | caller => "CALLER"
  | callValue => "CALLVALUE"
  | callDataSize => "CALLDATASIZE"
  | codeSize => "CODESIZE"
  | gasPrice => "GASPRICE"
  | returnDataSize => "RETURNDATASIZE"
  | coinbase => "COINBASE"
  | timestamp => "TIMESTAMP"
  | number => "NUMBER"
  | difficulty => "DIFFICULTY"
  | gasLimit => "GASLIMIT"
  | chainId => "CHAINID"
  | programCounter => "PC"
  | memorySize => "MSIZE"
  | gas => "GAS"

def AccountQuery.mnemonic : AccountQuery → String
  | balance => "BALANCE"
  | codeSize => "EXTCODESIZE"
  | codeHash => "EXTCODEHASH"

def FrameData.mnemonic : FrameData → String
  | callData => "CALLDATACOPY"
  | code => "CODECOPY"

def CallKind.mnemonic : CallKind → String
  | call => "CALL"
  | callCode => "CALLCODE"
  | delegateCall => "DELEGATECALL"
  | staticCall => "STATICCALL"

namespace Instruction

def mnemonic? : Instruction → Option String
  | stop => "STOP"
  | unary op => op.mnemonic
  | binary op => op.mnemonic
  | ternary op => op.mnemonic
  | keccak => "SHA3"
  | quantity q => q.mnemonic
  | account query => query.mnemonic
  | selfBalance => "SELFBALANCE"
  | blockHash => "BLOCKHASH"
  | callDataLoad => "CALLDATALOAD"
  | copy source => source.mnemonic
  | extCodeCopy => "EXTCODECOPY"
  | returnDataCopy => "RETURNDATACOPY"
  | pop => "POP"
  | mload => "MLOAD"
  | mstore => "MSTORE"
  | mstore8 => "MSTORE8"
  | sload => "SLOAD"
  | sstore => "SSTORE"
  | jump => "JUMP"
  | jumpIf => "JUMPI"
  | jumpDest => "JUMPDEST"
  | push size => s!"PUSH{size}"
  | dup place => s!"DUP{place}"
  | swap place => s!"SWAP{place}"
  | log topics => s!"LOG{topics}"
  | create => "CREATE"
  | saltedCreate => "CREATE2"
  | call kind => kind.mnemonic
  | ret => "RETURN"
  | revert => "REVERT"
  | invalid => "INVALID"
  | selfDestruct => "SELFDESTRUCT"
  | undefined _ => none

/-- A code byte's mnemonic, or its hexadecimal form when it has none. -/
def textOfByte (b : UInt8) : String :=
  (decode b).mnemonic?.getD (Hex.marked #[b])

end Instruction

end SpeculativeEvm
