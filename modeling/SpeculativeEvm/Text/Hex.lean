import SpeculativeEvm.Bytes
import SpeculativeEvm.Text.CharLiteral

/-!
Hexadecimal text. Reading takes digits of either case, two for a byte; writing uses lower case.
Positions in errors count bytes of the text's UTF-8 form.
-/

namespace SpeculativeEvm.Hex

/-- A byte that is no digit, and where it stands. -/
structure BadDigit where
  byte : UInt8
  position : Nat
  deriving DecidableEq

inductive Error
  | oddLength
  | invalidDigit (digit : BadDigit)
  deriving DecidableEq

def Error.message : Error → String
  | .oddLength => "Odd number of digits"
  | .invalidDigit d =>
    s!"Invalid character {Text.charLiteral d.byte} at position {d.position}"

/-- The value of a hexadecimal digit, given by its ASCII code. -/
def digitValue (c : UInt8) : Option UInt8 :=
  if 48 ≤ c ∧ c ≤ 57 then some (c - 48)
  else if 97 ≤ c ∧ c ≤ 102 then some (c - 87)
  else if 65 ≤ c ∧ c ≤ 70 then some (c - 55)
  else none

/-- The bytes in `done` and those of pairs of digits, the first of which stands at `position`. -/
def decodePairs (done : Bytes) (position : Nat) : List UInt8 → Except BadDigit Bytes
  | hi :: lo :: rest =>
    match digitValue hi, digitValue lo with
    | some h, some l => decodePairs (done.push (h * 16 + l)) (position + 2) rest
    | none, _ => .error ⟨hi, position⟩
    | _, none => .error ⟨lo, position + 1⟩
  | _ => .ok done

/-- The bytes a text of digit pairs denotes. -/
def decode (text : String) : Except Error Bytes :=
  let codes := text.toUTF8.data.toList
  if codes.length % 2 = 1 then throw .oddLength
  else (decodePairs #[] 0 codes).mapError .invalidDigit

/-- The lower-case digit of a value below 16. -/
def digitChar (value : UInt8) : Char :=
  Char.ofNat (if value < 10 then value.toNat + 48 else value.toNat + 87)

def pair (b : UInt8) : List Char :=
  [digitChar (b / 16), digitChar (b % 16)]

def encode (bytes : Bytes) : String :=
  String.ofList (bytes.toList.flatMap pair)

/-- The text without a leading `0x`, if it has one. -/
def withoutMark (text : String) : String :=
  match text.toList with
  | '0' :: 'x' :: rest => String.ofList rest
  | _ => text

/-- The digits behind the mark `0x`. -/
def marked (bytes : Bytes) : String :=
  "0x" ++ encode bytes

/-- Why a text is not the hexadecimal form of a value of fixed width. -/
inductive WidthError
  | invalidHex (cause : Error)
  | invalidLength (actual : Nat)
  deriving DecidableEq

/-- `noun` names the kind of value and `width` its number of bytes. -/
def WidthError.message (noun : String) (width : Nat) : WidthError → String
  | .invalidHex cause => s!"invalid hex string: {cause.message}"
  | .invalidLength actual => s!"invalid {noun} length: expected {width} bytes, got {actual}"

/-- Byte strings of exactly `width` bytes. -/
def checkWidth (width : Nat) (bytes : Bytes) : Except WidthError Bytes :=
  if bytes.size = width then .ok bytes else .error (.invalidLength bytes.size)

/-- The `width` bytes a text denotes, with or without the mark `0x`. -/
def readExact (width : Nat) (text : String) : Except WidthError Bytes := do
  checkWidth width (← (decode (withoutMark text)).mapError .invalidHex)

end SpeculativeEvm.Hex
