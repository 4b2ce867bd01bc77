/-!
A tree of files, and the text that a path leads to from a directory in it. A path is followed step
by step: a file has no steps below it, not even the empty one behind a closing slash, and the
parent of the root is the root.
-/

namespace SpeculativeEvm.Command

inductive FileTree
  | file (text : String)
  | directory (entries : List (String × FileTree))

/-- Why no text was read. -/
inductive ReadFailure
  | notFound
  | notDirectory
  | isDirectory
  | nameTooLong
  deriving DecidableEq

def ReadFailure.message : ReadFailure → String
  | notFound => "No such file or directory (os error 2)"
  | notDirectory => "Not a directory (os error 20)"
  | isDirectory => "Is a directory (os error 21)"
  | nameTooLong => "File name too long (os error 36)"

namespace FileTree

/-- The most bytes in one step of a path. -/
def stepLimit : Nat := 255

/-- The most bytes in a path. -/
def pathLimit : Nat := 4095

/-- Where the steps lead from `here`, whose parents are `above`, the nearest first. -/
def follow (here : FileTree) (above : List FileTree) : List String → Except ReadFailure FileTree
  | [] => .ok here
  | step :: rest =>
    match here with
    | .file _ => .error .notDirectory
    | .directory entries =>
      if step = "" ∨ step = "." then follow here above rest
      else if step = ".." then
        match above with
        | parent :: above => follow parent above rest
        | [] => follow here [] rest
      else if stepLimit < step.utf8ByteSize then .error .nameTooLong
      else
        match entries.lookup step with
        | some next => follow next (here :: above) rest
        | none => .error .notFound

/-- The text of the file at a path; one that starts with a slash is followed from the root. -/
def read (here : FileTree) (above : List FileTree) (path : String) : Except ReadFailure String :=
  if pathLimit < path.utf8ByteSize then .error .nameTooLong
  else
    let steps := path.splitOn "/"
    let place := if path.startsWith "/" then follow (above.getLastD here) [] steps
      else follow here above steps
    match place with
    | .ok (.file text) => .ok text
    | .ok (.directory _) => .error .isDirectory
    | .error failure => .error failure

end FileTree

end SpeculativeEvm.Command
