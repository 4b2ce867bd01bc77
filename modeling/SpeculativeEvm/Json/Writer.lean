import SpeculativeEvm.Json.Value

/-!
JSON text of a value: on one line without spaces, or over several lines indented by two spaces.
Each writer appends to the text `done` so far.
-/

namespace SpeculativeEvm.Json

def Text.quoted (t : Text) : String :=
  "\"" ++ t.source ++ "\""

mutual

def writeCompact (done : String) : Value → String
  | .null => done ++ "null"
  | .bool true => done ++ "true"
  | .bool false => done ++ "false"
  | .number source => done ++ source
  | .string t => done ++ t.quoted
  | .array [] => done ++ "[]"
  | .array (v :: rest) => compactItems (writeCompact (done ++ "[") v) rest ++ "]"
  | .object [] => done ++ "\x7b\x7d"
  | .object ((name, v) :: rest) =>
    compactMembers (writeCompact (done ++ "\x7b" ++ name.quoted ++ ":") v) rest ++ "\x7d"

/-- The items after the first. -/
def compactItems (done : String) : List Value → String
  | [] => done
  | v :: rest => compactItems (writeCompact (done ++ ",") v) rest

/-- The members after the first. -/
def compactMembers (done : String) : List (Text × Value) → String
  | [] => done
  | (name, v) :: rest =>
    compactMembers (writeCompact (done ++ "," ++ name.quoted ++ ":") v) rest

end

/-- A new line, indented to a depth. -/
def newLine (depth : Nat) : String :=
  "\n" ++ String.ofList (List.replicate (2 * depth) ' ')

mutual

def writePretty (depth : Nat) (done : String) : Value → String
  | .null => done ++ "null"
  | .bool true => done ++ "true"
  | .bool false => done ++ "false"
  | .number source => done ++ source
  | .string t => done ++ t.quoted
  | .array [] => done ++ "[]"
  | .array (v :: rest) =>
    prettyItems depth (writePretty (depth + 1) (done ++ "[" ++ newLine (depth + 1)) v) rest ++
      newLine depth ++ "]"
  | .object [] => done ++ "\x7b\x7d"
  | .object ((name, v) :: rest) =>
    prettyMembers depth
      (writePretty (depth + 1) (done ++ "\x7b" ++ newLine (depth + 1) ++ name.quoted ++ ": ") v)
      rest ++ newLine depth ++ "\x7d"

/-- The items after the first, each on its own line. -/
def prettyItems (depth : Nat) (done : String) : List Value → String
  | [] => done
  | v :: rest =>
    prettyItems depth (writePretty (depth + 1) (done ++ "," ++ newLine (depth + 1)) v) rest

/-- The members after the first, each on its own line. -/
def prettyMembers (depth : Nat) (done : String) : List (Text × Value) → String
  | [] => done
  | (name, v) :: rest =>
    prettyMembers depth
      (writePretty (depth + 1) (done ++ "," ++ newLine (depth + 1) ++ name.quoted ++ ": ") v) rest

end

def Value.compact (v : Value) : String := writeCompact "" v

def Value.pretty (v : Value) : String := writePretty 0 "" v

end SpeculativeEvm.Json
