import SpeculativeEvm.Word
import SpeculativeEvm.Text.Blank
import SpeculativeEvm.Text.Hex

/-!
Numbers in text. White space at the ends does not count. A word is decimal, or hexadecimal behind
one or two marks `0x`, and must fit in 256 bits. A natural number of any size is decimal or
hexadecimal behind one mark, may have a plus sign, and may have underscores after its first digit.
-/

namespace SpeculativeEvm.Numeral

/-- Why a text is no word. -/
inductive WordError
  | hexTooLong
  | hexDigit (digit : Hex.BadDigit)
  | decimalDigit
  | decimalTooLarge
  deriving DecidableEq

def WordError.message : WordError → String
  | .hexTooLong =>
    "FromStrRadixErr \x7b kind: InvalidLength, source: " ++
      "Some(Hex(FromHexError \x7b inner: InvalidStringLength \x7d)) \x7d"
  | .hexDigit digit =>
    "FromStrRadixErr \x7b kind: InvalidCharacter, source: Some(Hex(FromHexError " ++
      "\x7b inner: InvalidHexCharacter \x7b c: " ++ Text.charLiteral digit.byte ++
      ", index: " ++ toString digit.position ++ " \x7d \x7d)) \x7d"
  | .decimalDigit => "InvalidCharacter"
  | .decimalTooLarge => "InvalidLength"

/-- At most 64 hexadecimal digits, none of which denote zero; an odd number of them is read behind
a further zero, which counts in the positions of errors. -/
def readHexWord (text : String) : Except WordError Word :=
  let codes := text.toUTF8.data.toList
  if 64 < codes.length then .error .hexTooLong
  else
    let codes := if codes.length % 2 = 1 then 48 :: codes else codes
    Word.ofBytes <$> (Hex.decodePairs #[] 0 codes).mapError .hexDigit

/-- Decimal digits after the number `acc`; the first digit that is none or makes the number too
large ends the reading. -/
def readDecimal (acc : Nat) : List Char → Except WordError Nat
  | [] => .ok acc
  | c :: rest =>
    if c.isDigit then
      let next := acc * 10 + (c.toNat - '0'.toNat)
      if next ≤ (BitVec.allOnes 256).toNat then readDecimal next rest
      else .error .decimalTooLarge
    else .error .decimalDigit

def readTrimmedWord (text : String) : Except WordError Word :=
  match text.toList with
  | '0' :: 'x' :: rest => readHexWord (Hex.withoutMark (String.ofList rest))
  | cs => BitVec.ofNat 256 <$> readDecimal 0 cs

/-- The word a text denotes, or a message that quotes the text. -/
def readWord (text : String) : Except String Word :=
  let text := Text.trim text
  (readTrimmedWord text).mapError fun e => text ++ ": " ++ e.message

/-- The value of a letter or digit as a digit of base 36. -/
def digitValue? (c : Char) : Option Nat :=
  if c.isDigit then some (c.toNat - '0'.toNat)
  else if c.isLower then some (c.toNat - 'a'.toNat + 10)
  else if c.isUpper then some (c.toNat - 'A'.toNat + 10)
  else none

/-- Digits of `radix` after the number `acc`, underscores aside. -/
def readDigits (radix acc : Nat) : List Char → Option Nat
  | [] => some acc
  | '_' :: rest => readDigits radix acc rest
  | c :: rest =>
    match digitValue? c with
    | some d => if d < radix then readDigits radix (acc * radix + d) rest else none
    | none => none

/-- The digits without one plus sign; a second plus sign keeps both. -/
def withoutPlus : List Char → List Char
  | '+' :: '+' :: rest => '+' :: '+' :: rest
  | '+' :: rest => rest
  | cs => cs

def readUnsigned (radix : Nat) (cs : List Char) : Option Nat :=
  match withoutPlus cs with
  | [] => none
  | '_' :: _ => none
  | cs => readDigits radix 0 cs

def readTrimmedNat (text : String) : Option Nat :=
  match text.toList with
  | [] => some 0
  | '0' :: 'x' :: rest => readUnsigned 16 rest
  | cs => readUnsigned 10 cs

/-- The natural number a text denotes, zero for none, or a message that quotes the text. -/
def readNat (text : String) : Except String Nat :=
  let text := Text.trim text
  match readTrimmedNat text with
  | some n => .ok n
  | none => .error ("not a number: " ++ text)

/-- The bytes a text of digit pairs denotes, white space at its ends and one mark `0x` aside. -/
def readBytes (text : String) : Except String Bytes :=
  (Hex.decode (Hex.withoutMark (Text.trim text))).mapError fun e => "invalid hex: " ++ e.message

end SpeculativeEvm.Numeral
