import SpeculativeEvm.Execute.Nested
import SpeculativeEvm.Execute.State

/-!
One instruction of one frame. `start` carries it as far as the frame can by itself, which is to its
end except for calls and creations; `execute` also asks the host for those and resolves them.
-/

namespace SpeculativeEvm

variable {σ : Type}

namespace Execute

/-- An instruction that the host has no part in. -/
def alone (act : Action (Machine σ) Control) : Action (Machine σ) Progress := do
  return .done (← act)

def start (setup : Setup) (inv : Invocation) : Instruction → Action (Machine σ) Progress
  | .stop => return .done .halt
  | .unary op => alone (unary op.apply)
  | .binary op => alone (binary op.apply)
  | .ternary op => alone (ternary op.apply)
  | .keccak => alone keccak
  | .quantity q => alone (quantity setup inv q)
  | .account query => alone (account setup query)
  | .selfBalance => alone (selfBalance setup inv)
  | .blockHash => alone (blockHash setup.env.block)
  | .callDataLoad => alone (callDataLoad inv)
  | .copy source => alone (copy inv source)
  | .extCodeCopy => alone (extCodeCopy setup)
  | .returnDataCopy => alone returnDataCopy
  | .pop => alone pop
  | .mload => alone mload
  | .mstore => alone mstore
  | .mstore8 => alone mstore8
  | .sload => alone (sload setup inv)
  | .sstore => alone (sstore inv)
  | .jump => alone (jump inv)
  | .jumpIf => alone (jumpIf inv)
  | .jumpDest => return .done .next
  | .push size => alone (push inv size)
  | .dup place => alone (dup place)
  | .swap place => alone (swap place)
  | .log topics => alone (log topics)
  | .create => create
  | .saltedCreate => saltedCreate
  | .call kind => call kind
  | .ret => alone giveBack
  | .revert => alone giveBack
  | .invalid => alone invalid
  | .selfDestruct => alone (selfDestruct setup inv)
  | .undefined byte => throw (.invalidOpcode byte)

end Execute

def execute (setup : Setup) (host : Host σ) (inv : Invocation) (i : Instruction) :
    Action (Machine σ) Control := do
  match ← Execute.start setup inv i with
  | .done control => return control
  | .ask request resolution =>
    Machine.onWorld (host inv request)
    Execute.resolve resolution

end SpeculativeEvm
