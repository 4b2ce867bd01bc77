import SpeculativeEvm.Address
import SpeculativeEvm.Keccak
import Std.Data.ExtTreeMap

/-!
Committed accounts. `Ledger` holds them; `Committed` is all that a run can see of them: the
balance, nonce, code and storage of every address, with zeros and no code for absent accounts.
-/

namespace SpeculativeEvm

structure Account where
  nonce : UInt64 := 0
  balance : Word := 0
  code : Bytes := #[]
  storage : Std.ExtTreeMap Word Word := ∅

def Account.setStorage (account : Account) (slot value : Word) : Account :=
  { account with storage := account.storage.insert slot value }

structure Ledger where
  accounts : Std.ExtTreeMap Address Account

/-- Committed state as a run reads it. -/
structure Committed where
  balance : Address → Word
  nonce : Address → UInt64
  code : Address → Bytes
  storage : Address → Word → Word

namespace Ledger

def empty : Ledger := ⟨∅⟩

def account? (l : Ledger) (a : Address) : Option Account :=
  l.accounts[a]?

def insert (l : Ledger) (a : Address) (account : Account) : Ledger :=
  ⟨l.accounts.insert a account⟩

/-- Changes an account, an empty one when there is none yet. -/
def update (l : Ledger) (a : Address) (f : Account → Account) : Ledger :=
  l.insert a (f ((l.account? a).getD {}))

def setBalance (l : Ledger) (a : Address) (balance : Word) : Ledger :=
  l.update a fun account => { account with balance }

def setNonce (l : Ledger) (a : Address) (nonce : UInt64) : Ledger :=
  l.update a fun account => { account with nonce }

def setCode (l : Ledger) (a : Address) (code : Bytes) : Ledger :=
  l.update a fun account => { account with code }

def setStorage (l : Ledger) (a : Address) (slot value : Word) : Ledger :=
  l.update a (·.setStorage slot value)

/-- The number of accounts present. -/
def size (l : Ledger) : Nat := l.accounts.size

theorem account?_insert (l : Ledger) (a b : Address) (account : Account) :
    (l.insert a account).account? b = if a = b then some account else l.account? b := by
  simp [insert, account?, Std.ExtTreeMap.getElem?_insert]

def committed (l : Ledger) : Committed where
  balance a := ((l.account? a).map Account.balance).getD 0
  nonce a := ((l.account? a).map Account.nonce).getD 0
  code a := ((l.account? a).map Account.code).getD #[]
  storage a slot := ((l.account? a).bind fun account => account.storage[slot]?).getD 0

end Ledger

namespace Committed

def codeSize (c : Committed) (a : Address) : Nat := (c.code a).size

def codeHash (c : Committed) (a : Address) : Hash :=
  if (c.code a).isEmpty then Keccak.emptyHash else Keccak.hash (c.code a)

/-- No nonce, no balance and no code. -/
def isVacant (c : Committed) (a : Address) : Bool :=
  c.nonce a = 0 ∧ c.balance a = 0 ∧ c.codeSize a = 0

end Committed

end SpeculativeEvm
