import SpeculativeEvm.Address
import SpeculativeEvm.Keccak
import SpeculativeEvm.Rlp

/-!
Addresses of created contracts: the low 20 bytes of the hash of a preimage, made from the
sender's nonce for a plain creation, and from a salt and the hash of the init code for a salted one.
-/

namespace SpeculativeEvm.Creation

/-- The list of the sender and its nonce. -/
def preimage (sender : Address) (nonce : UInt64) : Bytes :=
  Rlp.encodeList [Rlp.encodeBytes sender.bytes, Rlp.encodeNat nonce.toNat]

/-- A byte `0xff`, the sender, the salt and the hash of the init code. -/
def saltedPreimage (sender : Address) (salt : Word) (initHash : Hash) : Bytes :=
  #[0xff] ++ sender.bytes ++ salt.toBytes ++ initHash.bytes

def addressOf (preimage : Bytes) : Address :=
  .ofWord (Keccak.hash preimage).toWord

def address (sender : Address) (nonce : UInt64) : Address :=
  addressOf (preimage sender nonce)

def saltedAddress (sender : Address) (salt : Word) (init : Bytes) : Address :=
  addressOf (saltedPreimage sender salt (Keccak.hash init))

end SpeculativeEvm.Creation
