import SpeculativeEvm.Word
import SpeculativeEvm.Text.Hex

/-!
Hashes: 32 bytes, ordered as big-endian numbers.
-/

namespace SpeculativeEvm

structure Hash where
  bits : BitVec 256
  deriving DecidableEq

namespace Hash

instance : Ord Hash := ⟨compareOn bits⟩

instance : Std.TransOrd Hash :=
  inferInstanceAs (Std.TransCmp (compareOn bits))

instance : Std.LawfulEqOrd Hash where
  compare_self {a} := show compareOn bits a a = .eq from Std.ReflCmp.compare_self
  eq_of_compare {a b} h := by
    cases a; cases b
    exact congrArg Hash.mk (Std.LawfulEqOrd.eq_of_compare h)

def width : Nat := 32

def zero : Hash := ⟨0⟩

/-- The hash of 32 bytes; of more, the last 32 count. -/
def ofBytes (bytes : Bytes) : Hash :=
  ⟨BitVec.ofNat 256 bytes.toNat⟩

def bytes (h : Hash) : Bytes :=
  Bytes.ofNat width h.bits.toNat

def ofSlice (bytes : Bytes) : Except Hex.WidthError Hash :=
  ofBytes <$> Hex.checkWidth width bytes

def ofHex (text : String) : Except Hex.WidthError Hash :=
  ofBytes <$> Hex.readExact width text

def hex (h : Hash) : String :=
  Hex.marked h.bytes

/-- The hash with its type's name around it. -/
def tagged (h : Hash) : String :=
  s!"H256({h.hex})"

def errorMessage (e : Hex.WidthError) : String :=
  e.message "hash" width

def ofWord (w : Word) : Hash := ⟨w⟩

def toWord (h : Hash) : Word := h.bits

end Hash

end SpeculativeEvm
