import SpeculativeEvm.Execute.Operand
import SpeculativeEvm.Host

/-!
Calls, creations and returns. A call or creation clears the level below and asks the host; when the
host has answered, it is resolved from what the host recorded there. A call goes on only if that is
exactly one payload; otherwise its result is not known, and the run aborts.
-/

namespace SpeculativeEvm

/-- What is left to do when the host has answered. -/
inductive Resolution
  /-- Writes the payload to `output` and pushes 1. -/
  | call (op : String) (output : Span)
  /-- Pushes the created address. -/
  | create
  deriving DecidableEq

/-- How far an instruction comes by itself. -/
inductive Progress
  | done (control : Control)
  | ask (request : Request) (resolution : Resolution)

namespace Execute

open Machine

variable {σ : Type}

/-- Clears the level below and notes the request. -/
def beginRequest (op : String) (target : Option Address) : Action (Machine σ) Unit := do
  onRun (·.clearBelow)
  note fun m => .dispatching op target m.world.run.level

/-- Reads the input of a call from memory and asks for the call. -/
def askCall (kind : CallKind) (target : Address) (input output : Except Fault Span)
    (request : Bytes → Request) : Action (Machine σ) Progress := do
  let input ← check input
  let output ← check output
  beginRequest kind.mnemonic target
  let data ← onMemory (Memory.get input.offset input.size)
  return .ask (request data) (.call kind.mnemonic output)

/-- The first operand, gas, is not looked at. -/
def call (kind : CallKind) : Action (Machine σ) Progress := do
  if kind.hasValue then
    let ⟨⟨[_, callee, value, inOffset, inSize, outOffset, outSize]⟩, _⟩ ← onStack (Stack.popN 7)
    let target := Address.ofWord callee
    askCall kind target (spanOf inOffset inSize) (spanOf outOffset outSize)
      (if kind = .call then .call target value else .callCode target value)
  else
    let ⟨⟨[_, callee, inOffset, inSize, outOffset, outSize]⟩, _⟩ ← onStack (Stack.popN 6)
    let target := Address.ofWord callee
    askCall kind target (spanOf inOffset inSize) (spanOf outOffset outSize)
      (if kind = .delegateCall then .delegateCall target else .staticCall target)

/-- Reads the init code of a creation from memory and asks for the creation. -/
def askCreate (op : String) (init : Except Fault Span) (request : Bytes → Request) :
    Action (Machine σ) Progress := do
  let init ← check init
  let code ← onMemory (Memory.get init.offset init.size)
  beginRequest op none
  return .ask (request code) .create

def create : Action (Machine σ) Progress := do
  let ⟨⟨[value, offset, size]⟩, _⟩ ← onStack (Stack.popN 3)
  askCreate "CREATE" (spanOf offset size) (.create value)

def saltedCreate : Action (Machine σ) Progress := do
  let ⟨⟨[value, offset, size, salt]⟩, _⟩ ← onStack (Stack.popN 4)
  askCreate "CREATE2" (spanOf offset size) (.saltedCreate value salt)

/-- Writes the one payload of the level below to `output` and pushes 1, or aborts the run. -/
def resolveCall (op : String) (output : Span) : Action (Machine σ) Control := do
  let level ← readRun (·.level + 1)
  match ← readRun (·.payloads level) with
  | [payload] =>
    note fun _ => .callResolved op level payload.size
    onMemory (Memory.set output.offset output.size payload)
    pushWord 1
  | [] =>
    note fun _ => .noPayload op level
    onRun (·.abort)
    return .halt
  | payloads =>
    note fun _ => .ambiguousPayloads op level payloads.length
    onRun (·.abort)
    return .halt

/-- Pushes the address created in the level below, zero if there is none. -/
def resolveCreate : Action (Machine σ) Control := do
  let level ← readRun (·.level + 1)
  let created ← readRun (·.created? level)
  let a := created.getD .zero
  note fun _ => .createResolved level a
  pushWord a.toWord

/-- Finishes an instruction after the host's answer; a run that aborted meanwhile just halts. -/
def resolve (resolution : Resolution) : Action (Machine σ) Control := do
  if ← readRun (·.outcome.aborted) then return .halt
  match resolution with
  | .call op output => resolveCall op output
  | .create => resolveCreate

/-- Hands a range of memory back as the frame's output, recorded at the frame's level unless it is
empty. Reverting hands back in the same way. -/
def giveBack : Action (Machine σ) Control := do
  let ⟨⟨[offset, size]⟩, _⟩ ← onStack (Stack.popN 2)
  let source ← check (spanOf offset size)
  let output ← onMemory (Memory.get source.offset source.size)
  if output.size ≠ 0 then onRun fun run => run.addPayload run.level output
  setOutput output
  return .halt

end Execute

end SpeculativeEvm
