import SpeculativeEvm.Text.Hex

/-!
What can stop a frame.
-/

namespace SpeculativeEvm

/-- The most words a stack holds. -/
def maxStackDepth : Nat := 1024

inductive Fault
  | stackUnderflow
  | stackOverflow
  | invalidOpcode (byte : UInt8)
  | invalidMemoryAccess
  | memoryLimitExceeded (requested limit : Nat)
  | stepLimitExceeded (steps : Nat)
  /-- Raised by the host of nested frames. -/
  | orchestrator (reason : String)
  | fatal (reason : String)
  deriving DecidableEq

namespace Fault

def message : Fault → String
  | stackUnderflow => "stack underflow"
  | stackOverflow => s!"stack overflow (max {maxStackDepth})"
  | invalidOpcode byte => "invalid opcode: " ++ Hex.marked #[byte]
  | invalidMemoryAccess => "invalid memory access"
  | memoryLimitExceeded requested limit =>
    s!"memory limit exceeded: requested {requested} bytes, limit {limit}"
  | stepLimitExceeded steps => s!"step limit exceeded after {steps} steps"
  | orchestrator reason => "orchestrator error: " ++ reason
  | fatal reason => "fatal: " ++ reason

/-- Fatal faults end the whole run; the others end one frame. -/
def isFatal : Fault → Bool
  | fatal _ => true
  | _ => false

end Fault

end SpeculativeEvm
