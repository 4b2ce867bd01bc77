import SpeculativeEvm.Json.Token

/-!
The value a JSON text spells. The reader walks the tokens with a stack of the arrays and objects
that are still open.
-/

namespace SpeculativeEvm.Json

/-- An array or object under construction, its parts latest first. -/
inductive Opened
  | array (items : List Value)
  | object (members : List (Text × Value)) (name : Text)

mutual

/-- Reads a value inside the opened ones. -/
def readValue (stack : List Opened) : List Token → Option Value
  | .literal v :: rest => readAfter stack v rest
  | .string t :: rest => readAfter stack (.string t) rest
  | .openBracket :: .closeBracket :: rest => readAfter stack (.array []) rest
  | .openBracket :: rest => readValue (.array [] :: stack) rest
  | .openBrace :: .closeBrace :: rest => readAfter stack (.object []) rest
  | .openBrace :: .string name :: .colon :: rest => readValue (.object [] name :: stack) rest
  | _ => none

/-- Goes on after a complete value. -/
def readAfter (stack : List Opened) (v : Value) : List Token → Option Value
  | [] =>
    match stack with
    | [] => some v
    | _ => none
  | .comma :: .string t :: .colon :: rest =>
    match stack with
    | .object members name :: stack => readValue (.object ((name, v) :: members) t :: stack) rest
    | _ => none
  | .comma :: rest =>
    match stack with
    | .array items :: stack => readValue (.array (v :: items) :: stack) rest
    | _ => none
  | .closeBracket :: rest =>
    match stack with
    | .array items :: stack => readAfter stack (.array (v :: items).reverse) rest
    | _ => none
  | .closeBrace :: rest =>
    match stack with
    | .object members name :: stack =>
      readAfter stack (.object ((name, v) :: members).reverse) rest
    | _ => none
  | _ => none

end

def Value.read? (text : String) : Option Value := do
  readValue [] (← tokens? text)

end SpeculativeEvm.Json
