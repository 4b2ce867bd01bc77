import SpeculativeEvm.Proofs.Checked.Execute
import SpeculativeEvm.Proofs.Code.Boundary
import SpeculativeEvm.Proofs.Execute.Counter

/-! The run of a frame from operations that have domains: the entries of the opcode table, the
analysis of jump destinations, the moves of the counter and the count of the steps. -/

namespace SpeculativeEvm

namespace Checked

variable {σ : Type}

/-- Where a byte stands in a family of opcodes, counted from `base`; zero outside the family. -/
def family (first last base : Nat) (b : UInt8) : Option Nat :=
  if first ≤ b.toNat ∧ b.toNat ≤ last then sub b.toNat base else some 0

def pushSize : UInt8 → Option Nat := family 0x60 0x7f 0x5f

def logTopics (b : UInt8) : Option (Option Nat) :=
  if 0xa0 ≤ b.toNat ∧ b.toNat ≤ 0xa4 then (sub b.toNat 0xa0).map some else some none

def tableEntry (b : UInt8) : Option Instruction := do
  let size ← pushSize b
  let depth ← family 0x80 0x8f 0x7f b
  let place ← family 0x90 0x9f 0x8f b
  let topics? ← logTopics b
  if 0 < size then return .push size
  if 0 < depth then return .dup depth
  if 0 < place then return .swap place
  match topics? with
  | some topics => return .log topics
  | none => return if b = 0x5f then .push 0 else .ofByte b

def decode (b : UInt8) : Option Instruction := if b.toNat < 256 then tableEntry b else none

/-- Marks the jump destinations from `i` on, an instruction at a time. -/
def analyze (code : Bytes) (i : Nat) (marks : Array Bool) : Option (Array Bool) :=
  if i < code.size then do
    let b ← code[i]?
    let marks := if b = Code.jumpDestByte then marks.setIfInBounds i true else marks
    let size ← pushSize b
    let _ ← add i (← add size 1)
    analyze code (i + (size + 1)) marks
  else some marks
termination_by code.size - i

/-- The code with the destinations that the analysis finds. -/
def codeOf (bytes : Bytes) : Option Code := do
  let marks ← analyze bytes 0 (Array.replicate bytes.size false)
  if h : marks = Code.destinations bytes then return ⟨bytes, marks, h⟩ else none

def moveOn (inv : Invocation) (opcode : UInt8) (control : Control) : Checked (Machine σ) Bool := do
  if ← lift <| Machine.readRun (·.outcome.aborted) then
    lift <| Machine.note fun m => .aborted m.frame.pc opcode m.world.run.level inv.address
    return false
  match control with
  | .next =>
    let pc ← lift Machine.pc
    lift <| Machine.setPc (← add pc 1)
    return true
  | .jump dest =>
    lift <| Machine.setPc dest
    return true
  | .halt => return false

def advance (setup : Setup) (host : Host σ) (inv : Invocation) (opcode : UInt8) :
    Checked (Machine σ) Bool := do
  lift <| Machine.note fun m => .step m.frame.pc opcode m.frame.stack.depth
  let control ← execute setup host inv (← decode opcode)
  moveOn inv opcode control

/-- Executes instructions, of which `steps` have been executed, up to the limit. -/
def runFrom (setup : Setup) (host : Host σ) (inv : Invocation) (steps : Nat) :
    Checked (Machine σ) Unit := do
  let pc ← lift Machine.pc
  if inv.code.bytes.size ≤ pc then return
  if setup.settings.maxSteps ≤ steps then lift (throw (.stepLimitExceeded steps))
  else
    let _ ← add steps 1
    let opcode ← inv.code.bytes[pc]?
    if ← advance setup host inv opcode then runFrom setup host inv (steps + 1)
termination_by setup.settings.maxSteps - steps

def run (setup : Setup) (host : Host σ) (inv : Invocation) : Checked (Machine σ) Bytes := do
  lift <| Machine.setPc 0
  runFrom setup host inv 0
  lift Machine.takeOutput

theorem pushSize_eq (b : UInt8) : pushSize b = some (Instruction.decode b).immediateSize :=
  Bytes.of_fin (P := fun b => pushSize b = some (Instruction.decode b).immediateSize)
    (by decide +kernel) b

theorem decode_eq (b : UInt8) : decode b = some (Instruction.decode b) :=
  Bytes.of_fin (P := fun b => decode b = some (Instruction.decode b)) (by decide +kernel) b

structure Marked (code : Bytes) (i : Nat) (marks : Array Bool) : Prop where
  size : marks.size = code.size
  exact (j : Nat) : marks[j]?.getD false = true ↔
    j < i ∧ Code.Boundary code j ∧ code[j]? = some Code.jumpDestByte

/-- Between an instruction's start and its end no other one starts. -/
theorem Marked.step {code : Bytes} {i : Nat} {marks : Array Bool} (hm : Marked code i marks)
    (hb : Code.Boundary code i) (h : i < code.size) :
    Marked code (i + Code.stride code[i])
      (if code[i] = Code.jumpDestByte then marks.setIfInBounds i true else marks) where
  size := by
    split
    · rw [Array.size_setIfInBounds, hm.size]
    · exact hm.size
  exact j := by
    have hget : code[i]? = some code[i] := Array.getElem?_eq_getElem h
    have hlt : i < i + Code.stride code[i] := (hb.lt_next_iff hb h).2 (Nat.le_refl i)
    by_cases hj : i = j
    · subst hj
      by_cases hd : code[i] = Code.jumpDestByte
      · rw [if_pos hd, Array.getElem?_setIfInBounds, if_pos rfl, if_pos (by rwa [hm.size])]
        simp only [Option.getD_some, true_iff]
        exact ⟨hlt, hb, by rw [hget, hd]⟩
      · rw [if_neg hd, hm.exact i, hget, Option.some_inj]
        simp [hd]
    · have hother : (if code[i] = Code.jumpDestByte then marks.setIfInBounds i true
          else marks)[j]? = marks[j]? := by
        split
        · rw [Array.getElem?_setIfInBounds, if_neg hj]
        · rfl
      rw [hother, hm.exact j]
      constructor
      · rintro ⟨hji, hrest⟩
        exact ⟨Nat.lt_trans hji hlt, hrest⟩
      · rintro ⟨hnext, hbj, hbyte⟩
        have hle := (hbj.lt_next_iff hb h).1 hnext
        exact ⟨by omega, hbj, hbyte⟩

/-- The analysis reads no byte past the end and marks exactly the destinations. -/
theorem analyze_marked {code : Bytes} (hroom : code.size + 32 < addressSpace) {i : Nat}
    {marks : Array Bool} (hm : Marked code i marks) (hb : Code.Boundary code i) :
    ∃ stop marks', analyze code i marks = some marks' ∧ code.size ≤ stop ∧
      Marked code stop marks' := by
  rw [analyze]
  by_cases h : i < code.size
  · have hsize := (Instruction.encoded_decode code[i]).immediateSize_le
    have hstep := hm.step hb h
    have hnext := Code.Boundary.next h hb
    rw [if_pos h, Array.getElem?_eq_getElem h]
    simp only [Option.bind_eq_bind, Option.bind_some, pushSize_eq]
    rw [add_eq (by omega), Option.bind_some, add_eq (by omega), Option.bind_some]
    exact analyze_marked hroom hstep hnext
  · rw [if_neg h]
    exact ⟨i, marks, rfl, by omega, hm⟩
termination_by code.size - i

theorem codeOf_eq {bytes : Bytes} (h : bytes.size + 32 < addressSpace) :
    codeOf bytes = some (.ofBytes bytes) := by
  have hblank : Marked bytes 0 (Array.replicate bytes.size false) := by
    refine ⟨Array.size_replicate, fun j => ?_⟩
    rw [Array.getElem?_replicate]
    split <;> simp
  obtain ⟨stop, marks, hrun, hstop, hm⟩ := analyze_marked h hblank .zero
  obtain ⟨hexact, hsize⟩ := Code.destinations_exact bytes
  have hmarks : marks = Code.destinations bytes := by
    refine Array.ext (hm.size.trans hsize.symm) fun j hj hj' => ?_
    have hmark := hm.exact j
    rw [Array.getElem?_eq_getElem hj, Option.getD_some] at hmark
    have hlt : j < stop := by
      have := hm.size
      omega
    rw [Bool.eq_iff_iff, hmark, hexact j hj']
    simp [hlt]
  subst hmarks
  rw [codeOf, hrun]
  simp only [Option.bind_eq_bind, Option.bind_some, dite_true]
  rfl

namespace Agrees

variable {setup : Setup} {inv : Invocation} {opcode : UInt8} {m : Machine σ}

/-- The counter can move on from a byte that is not the last one of the address space. -/
theorem moveOn (hm : Roomy false m) (hpc : m.frame.pc + 1 < addressSpace) (control : Control) :
    moveOn inv opcode control m = some (Interpreter.moveOn inv opcode control m) ∧
      Roomy false ((Interpreter.moveOn inv opcode control).final m) := by
  have hset (n : Nat) : Roomy false (Machine.mk { m.frame with pc := n } m.world) :=
    ⟨hm.memory, nofun⟩
  have hread : lift (Machine.readRun (·.outcome.aborted)) m =
    some (.ok m.world.run.outcome.aborted m) := rfl
  have hpcread : lift Machine.pc m = some (.ok m.frame.pc m) := rfl
  rw [Checked.moveOn.eq_def, bind_of_ok hread, Interpreter.moveOn.eq_def, Action.final,
    Machine.readRun_bind]
  cases m.world.run.outcome.aborted with
  | true =>
    exact (Agrees.bind (.note fun m => .aborted m.frame.pc opcode m.world.run.level inv.address)
      fun _ => .pure false) m hm
  | false =>
    cases control with
    | next =>
      simp only [Bool.false_eq_true, if_false]
      rw [bind_of_ok hpcread, add_eq hpc]
      exact ⟨rfl, hset _⟩
    | jump dest => exact ⟨rfl, hset _⟩
    | halt => exact ⟨rfl, hm⟩

/-- A turn agrees if the host does on what its instruction asks. -/
theorem advance {checked : Checked.Host σ} {host : SpeculativeEvm.Host σ} {noted : Machine σ}
    (ha : Allocated setup inv)
    (hnote : Machine.note (fun m => .step m.frame.pc opcode m.frame.stack.depth) m = .ok () noted)
    (hm : Roomy (Instruction.decode opcode).asksBelow noted)
    (hpc : noted.frame.pc < inv.code.bytes.size)
    (hh : ∀ request resolution m',
      Execute.start setup inv (Instruction.decode opcode) noted =
        .ok (.ask request resolution) m' →
      checked inv request m'.world = some (host inv request m'.world) ∧
        ((host inv request).final m'.world).run.level = m'.world.run.level) :
    advance setup checked inv opcode m = some (Interpreter.advance setup host inv opcode m) ∧
      Roomy false ((Interpreter.advance setup host inv opcode).final m) := by
  have hi := Instruction.encoded_decode opcode
  have hsize := hi.immediateSize_le
  have hroom := ha.code.room
  obtain ⟨hrun, hleft⟩ := execute ha hi hm hpc hh
  have hlift : lift (Machine.note fun m => .step m.frame.pc opcode m.frame.stack.depth) m =
    some (.ok () noted) := congrArg some hnote
  rw [Checked.advance, bind_of_ok hlift, decode_eq, Interpreter.advance_eq,
    Action.final_bind_of_ok hnote, Action.bind_of_ok hnote]
  show (Checked.execute setup checked inv (Instruction.decode opcode) >>= _) noted = _ ∧ _
  refine bind_from hrun (fun control m' hx => ?_) fun e m' hx => ?_
  · have hcounter := Execute.pc_of_execute setup inv hx
    rw [Action.final_of_ok hx] at hleft
    exact moveOn hleft (by omega) control
  · rwa [Action.final_of_error hx] at hleft

end Agrees

/-! The loop, by where it stands. -/

variable {setup : Setup} {host : Host σ} {inv : Invocation} {steps : Nat} {m : Machine σ}

theorem runFrom_of_ended (h : inv.code.bytes.size ≤ m.frame.pc) :
    runFrom setup host inv steps m = some (.ok () m) := by
  have hread : lift Machine.pc m = some (.ok m.frame.pc m) := rfl
  rw [runFrom, bind_of_ok hread, if_pos h]
  rfl

theorem runFrom_of_limit (h : m.frame.pc < inv.code.bytes.size)
    (hs : setup.settings.maxSteps ≤ steps) :
    runFrom setup host inv steps m = some (.error (.stepLimitExceeded steps) m) := by
  have hread : lift Machine.pc m = some (.ok m.frame.pc m) := rfl
  rw [runFrom, bind_of_ok hread, if_neg (Nat.not_le.2 h), if_pos hs]
  rfl

theorem runFrom_of_opcode {opcode : UInt8} (hc : inv.code.bytes[m.frame.pc]? = some opcode)
    (hs : steps < setup.settings.maxSteps) (hmax : setup.settings.maxSteps < addressSpace) :
    runFrom setup host inv steps m = (do
      if ← advance setup host inv opcode then runFrom setup host inv (steps + 1)) m := by
  have hread : lift Machine.pc m = some (.ok m.frame.pc m) := rfl
  have hpc := (Array.getElem?_eq_some_iff.1 hc).1
  rw [runFrom, bind_of_ok hread, if_neg (Nat.not_le.2 hpc), if_neg (Nat.not_le.2 hs),
    add_eq (by omega), hc]
  rfl

end Checked

end SpeculativeEvm
