/-!
Why a command failed: a chain of descriptions, the outermost first, each explained by the next.
-/

namespace SpeculativeEvm

abbrev Reasons := List String

/-- Puts a description around a failure. -/
def within {α : Type} (context : String) (result : Except Reasons α) : Except Reasons α :=
  result.mapError (context :: ·)

/-- A failure with one description. -/
def because {α : Type} (result : Except String α) : Except Reasons α :=
  result.mapError ([·])

namespace Reasons

def joined (r : Reasons) : String := ": ".intercalate r

/-- A text whose first line stands behind `first` and whose other lines are indented by
`indentation`. -/
def indented (first indentation text : String) : String :=
  first ++ text.replace "\n" ("\n" ++ indentation)

/-- The causes of a failure, numbered if there are several. -/
def causes : List String → String
  | [] => ""
  | [cause] => "\n\nCaused by:\n" ++ indented "    " "    " cause
  | several =>
    "\n\nCaused by:\n" ++ "\n".intercalate
      (several.mapIdx fun i cause =>
        let number := toString i
        let space := String.ofList (List.replicate (5 - number.length) ' ')
        indented (space ++ number ++ ": ") "       " cause)

/-- The full account of a failure, over several lines. -/
def account (r : Reasons) : String :=
  match r with
  | [] => "Error: "
  | outermost :: rest => "Error: " ++ outermost ++ causes rest

end Reasons

end SpeculativeEvm
