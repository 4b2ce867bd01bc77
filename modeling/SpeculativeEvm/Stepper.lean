import SpeculativeEvm.Execute

/-!
Single stepping: instructions executed one by one from any offset, past halts and faults, without
regard to the step budget or to whether the run has aborted.
-/

namespace SpeculativeEvm.Stepper

variable {σ : Type}

/-- One executed instruction and the machine as it left it. -/
structure Stop (σ : Type) where
  start : Nat
  opcode : UInt8
  result : Except Fault Control
  machine : Machine σ

/-- The offset after an instruction. -/
def Stop.next (s : Stop σ) : Nat :=
  match s.result with
  | .ok (.jump dest) => dest
  | _ => s.machine.frame.pc + 1

def step (setup : Setup) (host : Host σ) (inv : Invocation) (opcode : UInt8) (m : Machine σ) :
    Stop σ :=
  match execute setup host inv (Instruction.decode opcode) m with
  | .ok control after => ⟨m.frame.pc, opcode, .ok control, after⟩
  | .error fault after => ⟨m.frame.pc, opcode, .error fault, after⟩

/-- At most `count` instructions from the machine's offset, with the machine at the end. -/
def walk (setup : Setup) (host : Host σ) (inv : Invocation) :
    (count : Nat) → Machine σ → List (Stop σ) × Machine σ
  | 0, m => ([], m)
  | count + 1, m =>
    match inv.code.bytes[m.frame.pc]? with
    | none => ([], m)
    | some opcode =>
      let stop := step setup host inv opcode m
      let m := stop.machine
      let rest := walk setup host inv count { m with frame := { m.frame with pc := stop.next } }
      (stop :: rest.1, rest.2)

end SpeculativeEvm.Stepper
