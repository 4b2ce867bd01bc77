import SpeculativeEvm.Action
import SpeculativeEvm.Word

/-!
The operand stack: words, the top one first. Every operation either succeeds or faults and leaves
the stack alone.
-/

namespace SpeculativeEvm

structure Stack where
  words : List Word
  deriving DecidableEq

namespace Stack

def empty : Stack := ⟨[]⟩

def depth (s : Stack) : Nat := s.words.length

/-- The words from the bottom to the top. -/
def fromBottom (s : Stack) : List Word := s.words.reverse

def push (w : Word) : Action Stack Unit := fun s =>
  if s.depth < maxStackDepth then .ok () ⟨w :: s.words⟩ else .error .stackOverflow s

def pop : Action Stack Word := fun s =>
  match s.words with
  | w :: rest => .ok w ⟨rest⟩
  | [] => .error .stackUnderflow s

/-- Takes the top `n` words, the top one first, or none of them. -/
def popN (n : Nat) : Action Stack (Vector Word n) := fun s =>
  if h : (s.words.take n).length = n then
    .ok ⟨(s.words.take n).toArray, h⟩ ⟨s.words.drop n⟩
  else .error .stackUnderflow s

def peek : Action Stack Word := fun s =>
  match s.words with
  | w :: _ => .ok w s
  | [] => .error .stackUnderflow s

/-- Replaces the top word. -/
def poke (w : Word) : Action Stack Unit := fun s =>
  match s.words with
  | _ :: rest => .ok () ⟨w :: rest⟩
  | [] => .error .stackUnderflow s

/-- Exchanges the top word with the one `n` places below it. -/
def swap (n : Nat) : Action Stack Unit := fun s =>
  match s.words with
  | [] => .error .stackUnderflow s
  | top :: rest =>
    match n with
    | 0 => .error .stackUnderflow s
    | k + 1 =>
      match rest[k]? with
      | some w => .ok () ⟨w :: rest.set k top⟩
      | none => .error .stackUnderflow s

/-- Pushes a copy of the `n`-th word, the top one being the first. -/
def dup (n : Nat) : Action Stack Unit := fun s =>
  match n with
  | 0 => .error .stackUnderflow s
  | k + 1 =>
    match s.words[k]? with
    | some w => push w s
    | none => .error .stackUnderflow s

end Stack

end SpeculativeEvm
