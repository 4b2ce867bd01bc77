import SpeculativeEvm.Execute
import SpeculativeEvm.Proofs.Checked.Memory
import SpeculativeEvm.Proofs.Execute.Request

/-! Instructions from operations that have domains. Those that use none are as they are. -/

namespace SpeculativeEvm

namespace Instruction

def asksBelow : Instruction → Bool
  | call _ | create | saltedCreate => true
  | _ => false

theorem Asks.asksBelow {i : Instruction} {request : Request} {resolution : Resolution}
    (h : i.Asks request resolution) : i.asksBelow = true := by
  cases i with
  | call | create | saltedCreate => rfl
  | _ => cases h

/-- Immediates fit in a word, and no log has more than four topics. -/
def Encoded : Instruction → Prop
  | push size => size ≤ 32
  | log topics => topics ≤ 4
  | _ => True

theorem Encoded.immediateSize_le {i : Instruction} (h : i.Encoded) : i.immediateSize ≤ 32 := by
  cases i with
  | push size => exact h
  | _ => exact Nat.zero_le 32

theorem encoded_ofByte (b : UInt8) : (ofByte b).Encoded := by
  unfold ofByte
  split <;> trivial

theorem encoded_decode (b : UInt8) : (decode b).Encoded := by
  unfold decode
  split
  · next h =>
    have hle : b.toNat ≤ 0x7f := UInt8.le_iff_toNat_le.1 h.2
    show b.toNat - 0x5f ≤ 32
    omega
  split
  · trivial
  split
  · trivial
  split
  · next h =>
    have hle : b.toNat ≤ 0xa4 := UInt8.le_iff_toNat_le.1 h.2
    show b.toNat - 0xa0 ≤ 4
    omega
  · exact encoded_ofByte b

end Instruction

open Machine (check readRun onRun note setPc setOutput)

namespace Checked

variable {σ : Type}

/-! Work on the stack, by places counted from the bottom. -/

def swap (n : Nat) : Checked Stack Unit := fun s =>
  if n = 0 ∨ s.depth ≤ n then some (.error .stackUnderflow s)
  else do
    let top ← sub s.depth 1
    let place ← sub top n
    let w ← s.fromBottom[top]?
    let v ← s.fromBottom[place]?
    return .ok () ⟨((s.fromBottom.set top v).set place w).reverse⟩

def dup (n : Nat) : Checked Stack Unit := fun s =>
  if n = 0 ∨ s.depth < n then some (.error .stackUnderflow s)
  else do
    let place ← sub s.depth n
    return Stack.push (← s.fromBottom[place]?) s

def overTop (f : Word → Option Word) : Checked (Machine σ) Control := do
  let x ← lift <| Machine.onStack Stack.peek
  lift <| Machine.onStack (Stack.poke (← f x))
  return .next

def overTwo (op : BinaryOp) : Checked (Machine σ) Control := do
  let x ← lift <| Machine.onStack Stack.pop
  let y ← lift <| Machine.onStack Stack.peek
  lift <| Machine.onStack (Stack.poke (← binary op x y))
  return .next

def overThree (op : TernaryOp) : Checked (Machine σ) Control := do
  let x ← lift <| Machine.onStack Stack.pop
  let y ← lift <| Machine.onStack Stack.pop
  let n ← lift <| Machine.onStack Stack.peek
  lift <| Machine.onStack (Stack.poke (← ternary op x y n))
  return .next

/-- Pushes the immediate and moves to its last byte. -/
def push (inv : Invocation) (size : Nat) : Checked (Machine σ) Control := do
  let pc ← lift Machine.pc
  lift <| Machine.onStack (Stack.push (← immediate inv.code.bytes pc size))
  lift <| setPc (← add pc size)
  return .next

def log (topics : Nat) : Checked (Machine σ) Control := do
  lift <| Execute.drop (← add topics 2)
  return .next

/-! Quantities and accounts. -/

def quantityOf (setup : Setup) (inv : Invocation) (frame : Frame) :
    Quantity → Option (Except Fault Word)
  | .address => do return .ok (← wordOf inv.address.bytes)
  | .origin => do return .ok (← wordOf setup.env.origin.bytes)
  | .caller => do return .ok (← wordOf inv.caller.bytes)
  | .coinbase => do return .ok (← wordOf setup.env.block.coinbase.bytes)
  | .gasPrice => fitWord "gas price" setup.env.gasPrice
  | .difficulty => fitWord "difficulty" setup.env.block.difficulty
  | q => some (Execute.quantityOf setup inv frame q)

def quantity (setup : Setup) (inv : Invocation) (q : Quantity) : Checked (Machine σ) Control := do
  let m ← lift MonadState.get
  let w ← lift <| check (← quantityOf setup inv m.frame q)
  lift <| Execute.pushWord w

def answer (setup : Setup) (run : Speculation) (a : Address) : AccountQuery → Option Word
  | .codeHash =>
    if setup.committed.isVacant a then some 0 else wordOf (setup.committed.codeHash a).bytes
  | query => some (Execute.answer setup run a query)

def account (setup : Setup) (query : AccountQuery) : Checked (Machine σ) Control := do
  let w ← lift <| Machine.onStack Stack.peek
  let a ← addressOf w.toBytes
  let m ← lift MonadState.get
  lift <| Machine.onStack (Stack.poke (← answer setup m.world.run a query))
  lift <| onRun (·.recordRead a)
  return .next

def inHashWindow (b : Block) (number : UInt64) : Option Bool := do
  let lowest ← if b.number < 257 then some 0 else
    if 256 ≤ b.number then some (b.number - 256) else none
  return lowest ≤ number ∧ number < b.number

def hashBefore (block : Block) (n : Word) : Option Word := do
  if ← inHashWindow block n.saturate then wordOf (block.hashOf n.saturate).bytes else return 0

def selfDestruct (setup : Setup) (inv : Invocation) : Checked (Machine σ) Control := do
  let w ← lift <| Machine.onStack Stack.pop
  let beneficiary ← addressOf w.toBytes
  let balance ← lift <| readRun (·.overlay.viewBalance setup.committed inv.address)
  lift <| onRun fun run =>
    { run with overlay := run.overlay.credit setup.committed beneficiary balance }
  lift <| onRun (·.recordRead inv.address)
  lift <| onRun (·.recordWrite beneficiary)
  lift <| onRun (·.markSelfDestructed)
  lift <| note fun _ => .selfDestruct inv.address beneficiary balance
  return .halt

/-! Work on the memory. -/

def wordOfInput (inv : Invocation) (start : Word) : Option Word := do
  wordOf (← paddedSlice inv.input start.saturate.toNat 32)

def copy (inv : Invocation) (source : FrameData) : Checked (Machine σ) Control := do
  let ⟨⟨[offset, start, size]⟩, _⟩ ← lift <| Machine.onStack (Stack.popN 3)
  let target ← lift <| check (spanOf offset size)
  onMemory (copyBytes target.offset target.size (Execute.frameData inv source) start.saturate.toNat)
  return .next

def extCodeCopy (setup : Setup) : Checked (Machine σ) Control := do
  let ⟨⟨[source, offset, start, size]⟩, _⟩ ← lift <| Machine.onStack (Stack.popN 4)
  let a ← addressOf source.toBytes
  let target ← lift <| check (spanOf offset size)
  onMemory (copyBytes target.offset target.size (setup.committed.code a) start.saturate.toNat)
  lift <| onRun (·.recordRead a)
  return .next

def keccak : Checked (Machine σ) Control := do
  let offset ← lift <| Machine.onStack Stack.pop
  let size ← lift <| Machine.onStack Stack.peek
  let source ← lift <| check (spanOf offset size)
  let data ← onMemory (getBytes source.offset source.size)
  lift <| Machine.onStack (Stack.poke (← wordOf (Keccak.hash data).bytes))
  return .next

def mload : Checked (Machine σ) Control := do
  let w ← lift <| Machine.onStack Stack.peek
  let offset ← lift <| check (indexOf w)
  let w ← onMemory (loadWord offset)
  lift <| Machine.onStack (Stack.poke w)
  return .next

def mstore : Checked (Machine σ) Control := do
  let ⟨⟨[offset, w]⟩, _⟩ ← lift <| Machine.onStack (Stack.popN 2)
  let offset ← lift <| check (indexOf offset)
  onMemory (setBytes offset 32 w.toBytes)
  return .next

def mstore8 : Checked (Machine σ) Control := do
  let ⟨⟨[offset, w]⟩, _⟩ ← lift <| Machine.onStack (Stack.popN 2)
  let offset ← lift <| check (indexOf offset)
  onMemory (setByte offset (← byteAt w 0))
  return .next

def giveBack : Checked (Machine σ) Control := do
  let ⟨⟨[offset, size]⟩, _⟩ ← lift <| Machine.onStack (Stack.popN 2)
  let source ← lift <| check (spanOf offset size)
  let output ← onMemory (getBytes source.offset source.size)
  if output.size ≠ 0 then lift <| onRun fun run => run.addPayload run.level output
  lift <| setOutput output
  return .halt

/-! Calls and creations. -/

def levelBelow : Checked (Machine σ) Nat := do
  let level ← lift <| readRun (·.level)
  let below ← add level 1
  return below

def beginRequest (op : String) (target : Option Address) : Checked (Machine σ) Unit := do
  let _ ← levelBelow
  lift <| Execute.beginRequest op target

def askCall (kind : CallKind) (target : Address) (input output : Except Fault Span)
    (request : Bytes → Request) : Checked (Machine σ) Progress := do
  let input ← lift <| check input
  let output ← lift <| check output
  beginRequest kind.mnemonic target
  let data ← onMemory (getBytes input.offset input.size)
  return .ask (request data) (.call kind.mnemonic output)

def call (kind : CallKind) : Checked (Machine σ) Progress := do
  if kind.hasValue then
    let ⟨⟨[_, callee, value, inOffset, inSize, outOffset, outSize]⟩, _⟩ ←
      lift <| Machine.onStack (Stack.popN 7)
    let target ← addressOf callee.toBytes
    askCall kind target (spanOf inOffset inSize) (spanOf outOffset outSize)
      (if kind = .call then .call target value else .callCode target value)
  else
    let ⟨⟨[_, callee, inOffset, inSize, outOffset, outSize]⟩, _⟩ ←
      lift <| Machine.onStack (Stack.popN 6)
    let target ← addressOf callee.toBytes
    askCall kind target (spanOf inOffset inSize) (spanOf outOffset outSize)
      (if kind = .delegateCall then .delegateCall target else .staticCall target)

def askCreate (op : String) (init : Except Fault Span) (request : Bytes → Request) :
    Checked (Machine σ) Progress := do
  let init ← lift <| check init
  let code ← onMemory (getBytes init.offset init.size)
  beginRequest op none
  return .ask (request code) .create

def create : Checked (Machine σ) Progress := do
  let ⟨⟨[value, offset, size]⟩, _⟩ ← lift <| Machine.onStack (Stack.popN 3)
  askCreate "CREATE" (spanOf offset size) (.create value)

def saltedCreate : Checked (Machine σ) Progress := do
  let ⟨⟨[value, offset, size, salt]⟩, _⟩ ← lift <| Machine.onStack (Stack.popN 4)
  askCreate "CREATE2" (spanOf offset size) (.saltedCreate value salt)

def resolveCall (op : String) (output : Span) : Checked (Machine σ) Control := do
  let level ← levelBelow
  match ← lift <| readRun (·.payloads level) with
  | [payload] =>
    lift <| note fun _ => .callResolved op level payload.size
    onMemory (setBytes output.offset output.size payload)
    lift <| Execute.pushWord 1
  | [] =>
    lift <| note fun _ => .noPayload op level
    lift <| onRun (·.abort)
    return .halt
  | payloads =>
    lift <| note fun _ => .ambiguousPayloads op level payloads.length
    lift <| onRun (·.abort)
    return .halt

def resolveCreate : Checked (Machine σ) Control := do
  let level ← levelBelow
  let created ← lift <| readRun (·.created? level)
  let a := created.getD .zero
  lift <| note fun _ => .createResolved level a
  lift <| Execute.pushWord (← wordOf a.bytes)

def resolve (resolution : Resolution) : Checked (Machine σ) Control := do
  if ← lift <| readRun (·.outcome.aborted) then return .halt
  match resolution with
  | .call op output => resolveCall op output
  | .create => resolveCreate

def alone (act : Checked (Machine σ) Control) : Checked (Machine σ) Progress := do
  return .done (← act)

/-- An instruction as far as the frame can carry it by itself. -/
def start (setup : Setup) (inv : Invocation) : Instruction → Checked (Machine σ) Progress
  | .binary op => alone (overTwo op)
  | .ternary op => alone (overThree op)
  | .keccak => alone keccak
  | .quantity q => alone (quantity setup inv q)
  | .account query => alone (account setup query)
  | .blockHash => alone (overTop (hashBefore setup.env.block))
  | .callDataLoad => alone (overTop (wordOfInput inv))
  | .copy source => alone (copy inv source)
  | .extCodeCopy => alone (extCodeCopy setup)
  | .mload => alone mload
  | .mstore => alone mstore
  | .mstore8 => alone mstore8
  | .push size => alone (push inv size)
  | .dup place => alone (do onStack (dup place); return .next)
  | .swap place => alone (do onStack (swap place); return .next)
  | .log topics => alone (log topics)
  | .create => create
  | .saltedCreate => saltedCreate
  | .call kind => call kind
  | .ret => alone giveBack
  | .revert => alone giveBack
  | .selfDestruct => alone (selfDestruct setup inv)
  | i => lift (Execute.start setup inv i)

abbrev Host (σ : Type) := Invocation → Request → Checked (World σ) Unit

def execute (setup : Setup) (host : Host σ) (inv : Invocation) (i : Instruction) :
    Checked (Machine σ) Control := do
  match ← start setup inv i with
  | .done control => return control
  | .ask request resolution =>
    onWorld (host inv request)
    resolve resolution

/-! What the instructions read stays in its domains. -/

theorem inHashWindow_eq (b : Block) (number : UInt64) :
    inHashWindow b number = some (b.inHashWindow number) := by
  unfold inHashWindow Block.inHashWindow
  by_cases h : b.number < 257
  · simp only [if_pos h, Option.bind_eq_bind, Option.bind_some]
    rfl
  · have hle : 256 ≤ b.number := by
      rw [UInt64.not_lt] at h
      exact UInt64.le_trans (by decide) h
    simp only [if_neg h, if_pos hle, Option.bind_eq_bind, Option.bind_some]
    rfl

theorem hashBefore_eq (block : Block) (n : Word) : hashBefore block n =
    some (if block.inHashWindow n.saturate then (block.hashOf n.saturate).toWord else 0) := by
  rw [hashBefore, inHashWindow_eq]
  simp only [Option.bind_eq_bind, Option.bind_some, wordOf_hash]
  cases block.inHashWindow n.saturate <;> rfl

theorem wordOfInput_eq {inv : Invocation} (h : inv.input.size < addressSpace) (start : Word) :
    wordOfInput inv start = some (.ofBytes (inv.input.window start.saturate.toNat 32)) := by
  rw [wordOfInput, paddedSlice_eq h, Option.bind_eq_bind, Option.bind_some, wordOf_eq]
  rw [Bytes.size_window]

theorem quantityOf_eq (setup : Setup) (inv : Invocation) (frame : Frame) (q : Quantity) :
    quantityOf setup inv frame q = some (Execute.quantityOf setup inv frame q) := by
  cases q with
  | address | origin | caller | coinbase =>
    simp only [quantityOf, wordOf_address]
    rfl
  | gasPrice | difficulty => exact fitWord_eq _ _
  | _ => rfl

theorem answer_eq (setup : Setup) (run : Speculation) (a : Address) (query : AccountQuery) :
    answer setup run a query = some (Execute.answer setup run a query) := by
  cases query with
  | codeHash =>
    simp only [answer, wordOf_hash, Execute.answer]
    cases setup.committed.isVacant a <;> rfl
  | _ => rfl

theorem level_handBack {output : Bytes} (s : Speculation) :
    (s.addPayload s.level output).level = s.level := by
  unfold Speculation.addPayload
  dsimp only
  split <;> rfl

theorem byteAt_zero (w : Word) : byteAt w 0 = some w.lowByte := by
  rw [byteAt, if_pos (by decide)]
  rfl

end Checked

end SpeculativeEvm
