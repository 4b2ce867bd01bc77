import SpeculativeEvm.Execute.Operand

/-!
Instructions that read or write account state. Each records the account it touches: storage
accesses are those of the frame's own account, whatever the slot.
-/

namespace SpeculativeEvm.Execute

open Machine

variable {σ : Type}

/-- The answer to a query; balances are those the run sees, code is always committed. -/
def answer (setup : Setup) (run : Speculation) (a : Address) : AccountQuery → Word
  | .balance => run.overlay.viewBalance setup.committed a
  | .codeSize => BitVec.ofNat 256 (setup.committed.codeSize a)
  | .codeHash =>
    if setup.committed.isVacant a then 0 else (setup.committed.codeHash a).toWord

/-- Replaces an address by a property of its account. -/
def account (setup : Setup) (query : AccountQuery) : Action (Machine σ) Control := do
  let a := Address.ofWord (← onStack Stack.peek)
  onStack (Stack.poke (answer setup (← get).world.run a query))
  onRun (·.recordRead a)
  return .next

/-- The read is recorded before the push, which may overflow. -/
def selfBalance (setup : Setup) (inv : Invocation) : Action (Machine σ) Control := do
  let balance ← readRun (·.overlay.viewBalance setup.committed inv.address)
  onRun (·.recordRead inv.address)
  pushWord balance

def extCodeCopy (setup : Setup) : Action (Machine σ) Control := do
  let ⟨⟨[source, offset, start, size]⟩, _⟩ ← onStack (Stack.popN 4)
  let a := Address.ofWord source
  let target ← check (spanOf offset size)
  copyToMemory (setup.committed.code a) target start
  onRun (·.recordRead a)
  return .next

def sload (setup : Setup) (inv : Invocation) : Action (Machine σ) Control := do
  let slot ← onStack Stack.peek
  let value ← readRun (·.overlay.viewStorage setup.committed inv.address slot)
  onStack (Stack.poke value)
  onRun (·.recordRead inv.address)
  return .next

def sstore (inv : Invocation) : Action (Machine σ) Control := do
  let ⟨⟨[slot, value]⟩, _⟩ ← onStack (Stack.popN 2)
  note fun _ => .overlayStore inv.address slot value
  onRun fun run =>
    { run with overlay := run.overlay.setStorage inv.address slot value }
  onRun (·.recordWrite inv.address)
  return .next

/-- Ends the frame and marks the run as failed. -/
def invalid : Action (Machine σ) Control := do
  onRun (·.fail)
  return .halt

/-- Credits the account's balance to the beneficiary; the account itself is not debited. -/
def selfDestruct (setup : Setup) (inv : Invocation) : Action (Machine σ) Control := do
  let beneficiary := Address.ofWord (← onStack Stack.pop)
  let balance ← readRun (·.overlay.viewBalance setup.committed inv.address)
  onRun fun run =>
    { run with overlay := run.overlay.credit setup.committed beneficiary balance }
  onRun (·.recordRead inv.address)
  onRun (·.recordWrite beneficiary)
  onRun (·.markSelfDestructed)
  note fun _ => .selfDestruct inv.address beneficiary balance
  return .halt

end SpeculativeEvm.Execute
