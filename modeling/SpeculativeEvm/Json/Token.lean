import SpeculativeEvm.Json.Value

/-!
JSON tokens and the reader that splits a text into them. White space is space, tab, line feed and
carriage return.
-/

namespace SpeculativeEvm.Json

inductive Token
  | openBrace
  | closeBrace
  | openBracket
  | closeBracket
  | colon
  | comma
  | literal (value : Value)
  | string (text : Text)

/-- A part of a string: a character, or the code unit of an escape in hexadecimal. -/
inductive Piece
  | char (c : Char)
  | unit (n : Nat)

def isHighSurrogate (n : Nat) : Bool := 0xd800 ≤ n ∧ n < 0xdc00

def isLowSurrogate (n : Nat) : Bool := 0xdc00 ≤ n ∧ n < 0xe000

/-- The characters of the pieces after those in `done`, latest first; none if a surrogate is not
one of a pair. -/
def joinPieces (done : List Char) : List Piece → Option String
  | [] => some (String.ofList done.reverse)
  | .char c :: rest => joinPieces (c :: done) rest
  | .unit n :: rest =>
    if isHighSurrogate n then
      match rest with
      | .unit m :: rest =>
        if isLowSurrogate m then
          joinPieces (Char.ofNat (0x10000 + (n - 0xd800) * 0x400 + (m - 0xdc00)) :: done) rest
        else none
      | _ => none
    else if isLowSurrogate n then none
    else joinPieces (Char.ofNat n :: done) rest

def hexValue? (c : Char) : Option Nat :=
  if c.isDigit then some (c.toNat - '0'.toNat)
  else if 'a' ≤ c ∧ c ≤ 'f' then some (c.toNat - 'a'.toNat + 10)
  else if 'A' ≤ c ∧ c ≤ 'F' then some (c.toNat - 'A'.toNat + 10)
  else none

/-- The number four hexadecimal digits denote. -/
def hexUnit? (a b c d : Char) : Option Nat := do
  return (((← hexValue? a) * 16 + (← hexValue? b)) * 16 + (← hexValue? c)) * 16 + (← hexValue? d)

/-- The character a one-letter escape denotes. -/
def escaped? (c : Char) : Option Char :=
  if c = '"' ∨ c = '\\' ∨ c = '/' then some c
  else if c = 'b' then some (Char.ofNat 8)
  else if c = 'f' then some (Char.ofNat 12)
  else if c = 'n' then some '\n'
  else if c = 'r' then some '\r'
  else if c = 't' then some '\t'
  else none

/-- A string after its first quote, with what follows its last one. The source read so far and its
pieces come latest first. -/
def scanString (source : List Char) (pieces : List Piece) : List Char → Option (Text × List Char)
  | [] => none
  | '"' :: rest =>
    some (⟨String.ofList source.reverse, joinPieces [] pieces.reverse⟩, rest)
  | '\\' :: 'u' :: a :: b :: c :: d :: rest =>
    match hexUnit? a b c d with
    | some n => scanString (d :: c :: b :: a :: 'u' :: '\\' :: source) (.unit n :: pieces) rest
    | none => none
  | '\\' :: c :: rest =>
    match escaped? c with
    | some e => scanString (c :: '\\' :: source) (.char e :: pieces) rest
    | none => none
  | c :: rest =>
    if c.toNat < 32 ∨ c = '\\' then none else scanString (c :: source) (.char c :: pieces) rest

/-- One or more digits and what follows them. -/
def digits1 (cs : List Char) : Option (List Char × List Char) :=
  match cs.takeWhile Char.isDigit with
  | [] => none
  | ds => some (ds, cs.dropWhile Char.isDigit)

/-- Digits without a needless leading zero. -/
def wholePart (cs : List Char) : Option (List Char × List Char) :=
  match cs with
  | '0' :: rest => some (['0'], rest)
  | _ => digits1 cs

def fraction (cs : List Char) : Option (List Char × List Char) :=
  match cs with
  | '.' :: rest => (digits1 rest).map fun (ds, rest) => ('.' :: ds, rest)
  | _ => some ([], cs)

def exponent (cs : List Char) : Option (List Char × List Char) :=
  match cs with
  | c :: rest =>
    if c = 'e' ∨ c = 'E' then
      match rest with
      | s :: rest' =>
        if s = '+' ∨ s = '-' then (digits1 rest').map fun (ds, rest) => (c :: s :: ds, rest)
        else (digits1 rest).map fun (ds, rest) => (c :: ds, rest)
      | [] => none
    else some ([], cs)
  | [] => some ([], cs)

/-- A number and what follows it. -/
def scanNumber (cs : List Char) : Option (String × List Char) := do
  let (sign, cs) := match cs with
    | '-' :: rest => (['-'], rest)
    | _ => ([], cs)
  let (whole, cs) ← wholePart cs
  let (part, cs) ← fraction cs
  let (power, cs) ← exponent cs
  return (String.ofList (sign ++ whole ++ part ++ power), cs)

def isSpace (c : Char) : Bool := c = ' ' ∨ c = '\t' ∨ c = '\n' ∨ c = '\r'

/-- The first token of a text that does not start with white space. -/
def Token.first? : List Char → Option (Token × List Char)
  | '\x7b' :: rest => some (.openBrace, rest)
  | '\x7d' :: rest => some (.closeBrace, rest)
  | '[' :: rest => some (.openBracket, rest)
  | ']' :: rest => some (.closeBracket, rest)
  | ':' :: rest => some (.colon, rest)
  | ',' :: rest => some (.comma, rest)
  | '"' :: rest => (scanString [] [] rest).map fun (t, rest) => (.string t, rest)
  | 'n' :: 'u' :: 'l' :: 'l' :: rest => some (.literal .null, rest)
  | 't' :: 'r' :: 'u' :: 'e' :: rest => some (.literal (.bool true), rest)
  | 'f' :: 'a' :: 'l' :: 's' :: 'e' :: rest => some (.literal (.bool false), rest)
  | cs => (scanNumber cs).map fun (s, rest) => (.literal (.number s), rest)

/-- The tokens of a text after those in `done`, latest first; a token takes at least one character,
so `bound` need be no more than the length of the text. -/
def scan (done : List Token) : (bound : Nat) → List Char → Option (List Token)
  | _, [] => some done.reverse
  | 0, _ :: _ => none
  | bound + 1, c :: rest =>
    if isSpace c then scan done bound rest
    else
      match Token.first? (c :: rest) with
      | some (t, rest) => scan (t :: done) bound rest
      | none => none

def tokens? (text : String) : Option (List Token) :=
  let cs := text.toList
  scan [] cs.length cs

end SpeculativeEvm.Json
