import SpeculativeEvm.Bytes

/-!
The recursive length prefix of byte strings and of lists of encoded items. A string of one byte
below `0x80` is its own code; a length of 55 or less sits in the first byte, a longer one follows
it as a number without leading zeros.
-/

namespace SpeculativeEvm.Rlp

/-- The prefix for a payload of `length` bytes; `base` is `0x80` for strings, `0xc0` for lists. -/
def header (base length : Nat) : Bytes :=
  if length ≤ 55 then #[UInt8.ofNat (base + length)]
  else
    let digits := Bytes.ofNatMinimal length
    #[UInt8.ofNat (base + 55 + digits.size)] ++ digits

def encodeBytes (bytes : Bytes) : Bytes :=
  if bytes.size = 1 ∧ bytes.at0 0 < 0x80 then bytes
  else header 0x80 bytes.size ++ bytes

/-- A number is the string of its bytes without leading zeros, so zero is the empty string. -/
def encodeNat (n : Nat) : Bytes :=
  encodeBytes (Bytes.ofNatMinimal n)

/-- A list of items that are encoded already. -/
def encodeList (items : List Bytes) : Bytes :=
  let payload := items.foldl (· ++ ·) #[]
  header 0xc0 payload.size ++ payload

end SpeculativeEvm.Rlp
