import SpeculativeEvm.Word
import SpeculativeEvm.Text.Hex

/-!
Account addresses: 20 bytes, ordered as big-endian numbers. A word denotes the address in its
low 20 bytes.
-/

namespace SpeculativeEvm

structure Address where
  bits : BitVec 160
  deriving DecidableEq

namespace Address

instance : Ord Address := ⟨compareOn bits⟩

instance : Std.TransOrd Address :=
  inferInstanceAs (Std.TransCmp (compareOn bits))

instance : Std.LawfulEqOrd Address where
  compare_self {a} := show compareOn bits a a = .eq from Std.ReflCmp.compare_self
  eq_of_compare {a b} h := by
    cases a; cases b
    exact congrArg Address.mk (Std.LawfulEqOrd.eq_of_compare h)

def width : Nat := 20

def zero : Address := ⟨0⟩

/-- The address of 20 bytes; of more, the last 20 count. -/
def ofBytes (bytes : Bytes) : Address :=
  ⟨BitVec.ofNat 160 bytes.toNat⟩

def bytes (a : Address) : Bytes :=
  Bytes.ofNat width a.bits.toNat

def ofSlice (bytes : Bytes) : Except Hex.WidthError Address :=
  ofBytes <$> Hex.checkWidth width bytes

def ofHex (text : String) : Except Hex.WidthError Address :=
  ofBytes <$> Hex.readExact width text

def hex (a : Address) : String :=
  Hex.marked a.bytes

/-- The address with its type's name around it. -/
def tagged (a : Address) : String :=
  s!"Address({a.hex})"

def errorMessage (e : Hex.WidthError) : String :=
  e.message "address" width

def ofWord (w : Word) : Address :=
  ⟨w.setWidth 160⟩

def toWord (a : Address) : Word :=
  a.bits.setWidth 256

end Address

end SpeculativeEvm
