import SpeculativeEvm.Ledger

/-!
The writes of a run that are not committed, and the view of account state that layers them over
the committed one: an entry of the overlay hides the committed value, also when it is zero.
-/

namespace SpeculativeEvm

/-- One storage slot of one account. -/
structure SlotKey where
  address : Address
  slot : Word
  deriving DecidableEq

namespace SlotKey

instance : Ord SlotKey := ⟨compareLex (compareOn address) (compareOn slot)⟩

instance : Std.TransOrd SlotKey :=
  inferInstanceAs (Std.TransCmp (compareLex (compareOn address) (compareOn slot)))

instance : Std.LawfulEqOrd SlotKey where
  compare_self {a} :=
    show compareLex (compareOn address) (compareOn slot) a a = .eq from Std.ReflCmp.compare_self
  eq_of_compare {a b} h := by
    cases a; cases b
    obtain ⟨h₁, h₂⟩ := compareLex_eq_eq.1 h
    obtain rfl := Std.LawfulEqOrd.eq_of_compare h₁
    obtain rfl := Std.LawfulEqOrd.eq_of_compare h₂
    rfl

end SlotKey

structure Overlay where
  balances : Std.ExtTreeMap Address Word
  storage : Std.ExtTreeMap SlotKey Word

namespace Overlay

def empty : Overlay := ⟨∅, ∅⟩

def isEmpty (o : Overlay) : Bool :=
  o.balances.isEmpty && o.storage.isEmpty

def balance? (o : Overlay) (a : Address) : Option Word :=
  o.balances[a]?

def storage? (o : Overlay) (a : Address) (slot : Word) : Option Word :=
  o.storage[SlotKey.mk a slot]?

def setBalance (o : Overlay) (a : Address) (balance : Word) : Overlay :=
  { o with balances := o.balances.insert a balance }

def setStorage (o : Overlay) (a : Address) (slot value : Word) : Overlay :=
  { o with storage := o.storage.insert ⟨a, slot⟩ value }

/-- The balance a run sees. -/
def viewBalance (o : Overlay) (c : Committed) (a : Address) : Word :=
  (o.balance? a).getD (c.balance a)

/-- The storage value a run sees. -/
def viewStorage (o : Overlay) (c : Committed) (a : Address) (slot : Word) : Word :=
  (o.storage? a slot).getD (c.storage a slot)

/-- Adds to the balance a run sees, modulo `2 ^ 256`. -/
def credit (o : Overlay) (c : Committed) (a : Address) (amount : Word) : Overlay :=
  o.setBalance a (o.viewBalance c a + amount)

@[simp] theorem balance?_setBalance (o : Overlay) (a b : Address) (w : Word) :
    (o.setBalance a w).balance? b = if a = b then some w else o.balance? b := by
  simp [setBalance, balance?, Std.ExtTreeMap.getElem?_insert]

@[simp] theorem storage?_setBalance (o : Overlay) (a b : Address) (w slot : Word) :
    (o.setBalance a w).storage? b slot = o.storage? b slot := rfl

@[simp] theorem balance?_setStorage (o : Overlay) (a b : Address) (slot w : Word) :
    (o.setStorage a slot w).balance? b = o.balance? b := rfl

@[simp] theorem storage?_setStorage (o : Overlay) (a b : Address) (slot other w : Word) :
    (o.setStorage a slot w).storage? b other =
      if a = b ∧ slot = other then some w else o.storage? b other := by
  simp [setStorage, storage?, Std.ExtTreeMap.getElem?_insert]

theorem viewBalance_credit (o : Overlay) (c : Committed) (a b : Address) (amount : Word) :
    (o.credit c a amount).viewBalance c b =
      if a = b then o.viewBalance c a + amount else o.viewBalance c b := by
  by_cases h : a = b <;> simp [credit, viewBalance, h]

end Overlay

end SpeculativeEvm
