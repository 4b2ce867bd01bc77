import SpeculativeEvm.Execute

/-!
The run of one frame: instructions one after another, until one halts, the code ends, the run
aborts, an instruction faults or the step budget is used up.
-/

namespace SpeculativeEvm.Interpreter

open Machine

variable {σ : Type}

/-- Executes the instruction that starts with `opcode` and moves the counter on; tells whether the
frame goes on. -/
def advance (setup : Setup) (host : Host σ) (inv : Invocation) (opcode : UInt8) :
    Action (Machine σ) Bool := do
  note fun m => .step m.frame.pc opcode m.frame.stack.depth
  let control ← execute setup host inv (Instruction.decode opcode)
  if ← readRun (·.outcome.aborted) then
    note fun m => .aborted m.frame.pc opcode m.world.run.level inv.address
    return false
  match control with
  | .next =>
    setPc ((← Machine.pc) + 1)
    return true
  | .jump dest =>
    setPc dest
    return true
  | .halt => return false

/-- The code byte at the counter, if the counter is inside the code. -/
def fetch (inv : Invocation) : Action (Machine σ) (Option UInt8) := do
  return inv.code.bytes[← Machine.pc]?

/-- Executes at most `budget` instructions; to need more is a fault. -/
def runFor (setup : Setup) (host : Host σ) (inv : Invocation) :
    (budget : Nat) → Action (Machine σ) Unit
  | 0 => do
    if (← fetch inv).isSome then throw (.stepLimitExceeded setup.settings.maxSteps)
  | budget + 1 => do
    let some opcode ← fetch inv | return
    if ← advance setup host inv opcode then runFor setup host inv budget

/-- Runs the frame from its first instruction and hands back its output. -/
def run (setup : Setup) (host : Host σ) (inv : Invocation) : Action (Machine σ) Bytes := do
  setPc 0
  runFor setup host inv setup.settings.maxSteps
  takeOutput

end SpeculativeEvm.Interpreter
