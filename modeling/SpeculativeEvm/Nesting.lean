import SpeculativeEvm.Creation
import SpeculativeEvm.Interpreter

/-!
The host that runs nested frames on the same interpreter, one level below the frame that asks. No
value is transferred. A nested frame that faults, fatal faults apart, is as if nothing had been
recorded for it, and below the deepest level nothing runs at all.
-/

namespace SpeculativeEvm.Nesting

/-- The next nonce of each account that has created contracts. -/
abbrev Nonces := Std.ExtTreeMap Address UInt64

/-- The account's nonce, which is used up. -/
def takeNonce (setup : Setup) (a : Address) : Action (World Nonces) UInt64 := fun
  | ⟨run, nonces, journal⟩ =>
    let nonce := nonces[a]?.getD (setup.committed.nonce a)
    .ok nonce ⟨run, nonces.insert a (nonce + 1), journal⟩

/-- The frame a request asks for. -/
def child (setup : Setup) (inv : Invocation) : Request → Action (World Nonces) Invocation
  | .call target value input =>
    return ⟨target, inv.address, value, .ofBytes (setup.committed.code target), input⟩
  | .callCode target value input =>
    return ⟨inv.address, inv.address, value, .ofBytes (setup.committed.code target), input⟩
  | .delegateCall target input =>
    return ⟨inv.address, inv.caller, inv.value, .ofBytes (setup.committed.code target), input⟩
  | .staticCall target input =>
    return ⟨target, inv.address, 0, .ofBytes (setup.committed.code target), input⟩
  | .create value init => do
    let nonce ← takeNonce setup inv.address
    return ⟨Creation.address inv.address nonce, inv.address, value, .ofBytes init, #[]⟩
  | .saltedCreate value salt init =>
    return ⟨Creation.saltedAddress inv.address salt init, inv.address, value, .ofBytes init, #[]⟩

/-- Runs nothing, the level being the deepest. -/
def refuse : Action (World Nonces) Bool := do
  World.note fun w => .depthLimit w.run.level
  return false

/-- Runs a frame one level down; tells whether it ran to completion. -/
def enter (setup : Setup) (host : Host Nonces) (inv : Invocation) :
    Action (World Nonces) Bool := fun
  | ⟨run, nonces, journal⟩ =>
    let below := { run with level := run.level + 1 }
    match Interpreter.run setup host inv
        ⟨.fresh setup.settings.maxMemory, ⟨below, nonces, journal⟩⟩ with
    | .ok _ ⟨_, ⟨run, nonces, journal⟩⟩ =>
      .ok true ⟨{ run with level := run.level - 1 }, nonces, journal⟩
    | .error fault ⟨_, ⟨run, nonces, journal⟩⟩ =>
      let w : World Nonces := ⟨{ run with level := run.level - 1 }, nonces, journal⟩
      if fault.isFatal then .error fault w
      else (do
        World.note fun w => .childFailed inv.address (w.run.level + 1) fault
        return false) w

/-- Answers a request, with `descend` to run the frame it asks for. -/
def serve (setup : Setup) (descend : Invocation → Action (World Nonces) Bool) : Host Nonces :=
  fun inv request => do
    let next ← child setup inv request
    let completed ← descend next
    if completed && request.isCreation then
      World.modifyRun fun run => run.setCreated (run.level + 1) next.address

/-- The host of a frame above which `depth` more levels may run. -/
def host (setup : Setup) : (depth : Nat) → Host Nonces
  | 0 => serve setup fun _ => refuse
  | depth + 1 => serve setup (enter setup (host setup depth))

/-- Runs a frame at the run's level. -/
def execute (setup : Setup) (inv : Invocation) : Action (Machine Nonces) Bytes := do
  let level ← Machine.readRun (·.level)
  Interpreter.run setup (host setup (setup.settings.maxCallDepth - level)) inv

end SpeculativeEvm.Nesting
