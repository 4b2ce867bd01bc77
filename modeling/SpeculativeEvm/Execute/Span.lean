import SpeculativeEvm.Fault
import SpeculativeEvm.Word

/-!
Memory ranges given by operand words. Offset and size must be 64-bit quantities, but the offset of
an empty range is not looked at.
-/

namespace SpeculativeEvm

structure Span where
  offset : Nat
  size : Nat
  deriving DecidableEq

def indexOf (w : Word) : Except Fault Nat :=
  match w.index? with
  | some n => .ok n
  | none => .error .invalidMemoryAccess

def spanOf (offset size : Word) : Except Fault Span := do
  let size ← indexOf size
  if size = 0 then return ⟨0, 0⟩
  return ⟨← indexOf offset, size⟩

end SpeculativeEvm
