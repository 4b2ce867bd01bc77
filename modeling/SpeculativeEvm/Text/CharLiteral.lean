/-!
A code point below 256 as a quoted character: control characters, the no-break space and the soft
hyphen are escaped, as are the quote and the backslash.
-/

namespace SpeculativeEvm.Text

/-- Code points below 256 that have no printed form. -/
def unprintable (n : Nat) : Bool :=
  n < 0x20 ∨ (0x7f ≤ n ∧ n ≤ 0xa0) ∨ n = 0xad

def escapeLatin1 (code : UInt8) : String :=
  if code = 0 then "\\0"
  else if code = 9 then "\\t"
  else if code = 10 then "\\n"
  else if code = 13 then "\\r"
  else if code = 39 then "\\'"
  else if code = 92 then "\\\\"
  else if unprintable code.toNat then
    "\\u\x7b" ++ String.ofList (Nat.toDigits 16 code.toNat) ++ "\x7d"
  else String.singleton (Char.ofNat code.toNat)

/-- The quoted form of a code point below 256. -/
def charLiteral (code : UInt8) : String :=
  "'" ++ escapeLatin1 code ++ "'"

end SpeculativeEvm.Text
