import SpeculativeEvm.Address
import SpeculativeEvm.Fault
import SpeculativeEvm.Hash
import Std.Data.ExtTreeMap

/-!
What surrounds a run: the block it runs in, the transaction it belongs to, and the limits set for
it. Prices and difficulties are natural numbers of any size; reading one that is no word is fatal.
-/

namespace SpeculativeEvm

structure Block where
  number : UInt64 := 0
  timestamp : UInt64 := 0
  gasLimit : UInt64 := 0
  coinbase : Address := .zero
  hash : Hash := .zero
  ancestorHashes : Std.ExtTreeMap UInt64 Hash := ∅
  difficulty : Nat := 0

namespace Block

/-- The known hash of an ancestor, the block's own hash when none is known. -/
def hashOf (b : Block) (number : UInt64) : Hash :=
  b.ancestorHashes[number]?.getD b.hash

/-- Whether a block is one of the 256 before this one. -/
def inHashWindow (b : Block) (number : UInt64) : Bool :=
  let lowest := if b.number < 257 then 0 else b.number - 256
  lowest ≤ number ∧ number < b.number

end Block

structure Environment where
  block : Block := {}
  origin : Address := .zero
  gasPrice : Nat := 0
  chainId : UInt64 := 1

/-- Limits and stand-ins of the interpreter. -/
structure Settings where
  /-- Pushed wherever the gas left is asked for. -/
  gasStandIn : UInt64 := 100000000000
  maxMemory : Nat := 100000
  maxSteps : Nat := 1000000
  maxCallDepth : Nat := 1024

/-- The word of a number, which `what` names in the fault. -/
def fitWord (what : String) (n : Nat) : Except Fault Word :=
  match Word.ofNat? n with
  | some w => .ok w
  | none => .error (.fatal s!"{what} does not fit in 256 bits")

end SpeculativeEvm
