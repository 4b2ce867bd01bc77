/-!
JSON values as they are spelled: numbers and strings keep their source text, objects keep their
members in order, repeated names included.
-/

namespace SpeculativeEvm.Json

/-- A string between its quotes. -/
structure Text where
  source : String
  /-- What the source denotes; none if it escapes a surrogate that is not one of a pair. -/
  content : Option String
  deriving DecidableEq

inductive Value
  | null
  | bool (b : Bool)
  | number (source : String)
  | string (text : Text)
  | array (items : List Value)
  | object (members : List (Text × Value))

def hexDigit (n : Nat) : Char :=
  Nat.digitChar n

/-- A character as a string literal spells it. -/
def escape (c : Char) : List Char :=
  if c = '"' then ['\\', '"']
  else if c = '\\' then ['\\', '\\']
  else if c = '\n' then ['\\', 'n']
  else if c = '\r' then ['\\', 'r']
  else if c = '\t' then ['\\', 't']
  else if c.toNat = 8 then ['\\', 'b']
  else if c.toNat = 12 then ['\\', 'f']
  else if c.toNat < 32 then
    ['\\', 'u', '0', '0', hexDigit (c.toNat / 16), hexDigit (c.toNat % 16)]
  else [c]

def Text.ofString (s : String) : Text :=
  ⟨String.ofList (s.toList.flatMap escape), some s⟩

namespace Value

def ofString (s : String) : Value := .string (.ofString s)

def ofNat (n : Nat) : Value := .number (toString n)

def ofStrings (items : List String) : Value := .array (items.map ofString)

/-- An object with the given names. -/
def ofMembers (members : List (String × Value)) : Value :=
  .object (members.map fun m => (.ofString m.1, m.2))

end Value

end SpeculativeEvm.Json
