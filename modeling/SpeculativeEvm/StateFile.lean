import SpeculativeEvm.Ledger
import SpeculativeEvm.RunConfig

/-!
Committed accounts as they are written: balances, slots and values are texts until the ledger is
made from them. Entries are taken in the order they are listed in, so of two texts for one slot the
later counts.
-/

namespace SpeculativeEvm

open Json

/-- One account as it is written. -/
structure AccountEntry where
  balance : String := ""
  nonce : UInt64 := 0
  code : Option String := none
  storage : List (String × String) := []
  deriving DecidableEq

structure StateFile where
  accounts : List (Address × AccountEntry) := []
  deriving DecidableEq

namespace AccountEntry

def names : Vector String 4 := #v["balance", "nonce", "code", "storage"]

def ofJson? (v : Value) : Option AccountEntry := do
  let d : AccountEntry := {}
  let ⟨⟨[balance, nonce, code, storage]⟩, _⟩ ← v.fields? names
  return {
    balance := ← fieldOr d.balance Value.text? balance
    nonce := ← fieldOr d.nonce Value.uint64? nonce
    code := ← fieldOr d.code Value.optionalText? code
    storage := ← fieldOr d.storage (Value.entries? Text.content Value.text?) storage }

/-- An empty text is no balance. -/
def readBalance (text : String) : Except Reasons Word :=
  if text = "" then .ok 0 else within "invalid balance" (because (Numeral.readWord text))

def readCode : Option String → Except Reasons Bytes
  | none => .ok #[]
  | some text => within "invalid code" (because (Numeral.readBytes text))

def readSlot (entry : String × String) : Except Reasons (Word × Word) := do
  let slot ← within "invalid storage slot" (because (Numeral.readWord entry.1))
  let value ← within "invalid storage value" (because (Numeral.readWord entry.2))
  return (slot, value)

def account (e : AccountEntry) : Except Reasons Account := do
  let balance ← readBalance e.balance
  let code ← readCode e.code
  let slots ← e.storage.mapM readSlot
  return slots.foldl (fun account s => account.setStorage s.1 s.2)
    { nonce := e.nonce, balance, code }

end AccountEntry

namespace StateFile

def names : Vector String 1 := #v["accounts"]

def ofJson? (v : Value) : Option StateFile := do
  let ⟨⟨[accounts]⟩, _⟩ ← v.fields? names
  return ⟨← fieldOr [] (Value.entries? Text.address? AccountEntry.ofJson?) accounts⟩

def read? (text : String) : Option StateFile := do
  ofJson? (← Value.read? text)

/-- The ledger the file describes. -/
def ledger (f : StateFile) : Except Reasons Ledger :=
  f.accounts.foldlM (fun l e => return l.insert e.1 (← within s!"account {e.1.hex}" e.2.account))
    .empty

end StateFile

end SpeculativeEvm
