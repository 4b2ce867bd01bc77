import SpeculativeEvm.Proofs.Nesting.Record

/-! The log of a run's accesses, told from its course. Each instruction that ends well has accesses
of its own, in nested frames too, and they stand in the log in the order of execution. One that
faults has none, but for the one that pushes the frame's own balance: it has read the account before
the stack overflows. -/

namespace SpeculativeEvm

open Nesting Execute

namespace Instruction

/-- The accesses of an instruction of account `self` that finds these words on its stack. -/
def accesses (self : Address) : Instruction → List Word → List Access
  | account _, w :: _ => [⟨.ofWord w, .read⟩]
  | extCodeCopy, w :: _ => [⟨.ofWord w, .read⟩]
  | selfBalance, _ => [⟨self, .read⟩]
  | sload, _ => [⟨self, .read⟩]
  | sstore, _ => [⟨self, .write⟩]
  | selfDestruct, w :: _ => [⟨self, .read⟩, ⟨.ofWord w, .write⟩]
  | _, _ => []

/-- The accesses of an instruction of account `self` that faults. -/
def accessesBefore (self : Address) : Instruction → Fault → List Access
  | selfBalance, .stackOverflow => [⟨self, .read⟩]
  | _, _ => []

def hasAccesses : Instruction → Bool
  | account _ | extCodeCopy | selfBalance | sload | sstore | selfDestruct => true
  | _ => false

variable {i : Instruction} (hi : i.hasAccesses = false) (self : Address)

include hi

theorem accesses_of_not_has (words : List Word) : i.accesses self words = [] := by
  cases i with
  | account | extCodeCopy | selfBalance | sload | sstore | selfDestruct => cases hi
  | _ => rfl

theorem accessesBefore_of_not_has (e : Fault) : i.accessesBefore self e = [] := by
  cases i with
  | selfBalance => cases hi
  | _ => rfl

end Instruction

namespace Speculation

/-- The accesses so far, in the order in which they were recorded. -/
def log (s : Speculation) : List Access := s.accesses.log.toList

theorem log_recordRead (s : Speculation) (a : Address) :
    (s.recordRead a).log = s.log ++ [⟨a, .read⟩] := Array.toList_push

theorem log_recordWrite (s : Speculation) (a : Address) :
    (s.recordWrite a).log = s.log ++ [⟨a, .write⟩] := Array.toList_push

theorem log_bequeath (s : Speculation) (c : Committed) (a beneficiary : Address) :
    (s.bequeath c a beneficiary).log = s.log ++ [⟨a, .read⟩, ⟨beneficiary, .write⟩] := by
  refine (log_recordWrite _ beneficiary).trans ?_
  rw [log_recordRead, List.append_assoc]
  rfl

end Speculation

namespace Execute

variable {σ α : Type} {setup : Setup} {inv : Invocation} {m : Machine σ} {i : Instruction}

/-- The instruction has added its accesses to the log, however it has ended. -/
def Logs (self : Address) (i : Instruction) (m : Machine σ) :
    EStateM.Result Fault (Machine σ) α → Prop
  | .ok _ m' => m'.world.run.log = m.world.run.log ++ i.accesses self m.frame.stack.words
  | .error e m' => m'.world.run.log = m.world.run.log ++ i.accessesBefore self e

theorem Effect.accesses {s t : Speculation} (h : Effect setup inv s i t)
    (hi : i.hasAccesses = false) : t.accesses = s.accesses := by
  cases h with
  | account | extCodeCopy | selfBalance | sload | sstore | selfDestruct => cases hi
  | handBack _ output =>
    obtain ⟨returned, he⟩ := s.handBack_eq output
    rw [he]
  | _ => rfl

/-- A fault, but for that of a full stack, comes before any access. -/
theorem logs_fault {self : Address} {e : Fault} {m' : Machine σ}
    (hi : i.accessesBefore self e = []) (hl : m'.world.run.log = m.world.run.log) :
    Logs self i m (.error e m' : EStateM.Result Fault (Machine σ) α) := by
  rw [Logs, hi, hl, List.append_nil]

theorem logs_of_not_has (setup : Setup) (inv : Invocation) (hi : i.hasAccesses = false)
    (m : Machine σ) : Logs inv.address i m (start setup inv i m) := by
  have h := congrArg (fun s : AccessSet => s.log.toList) ((start_effect setup inv m i).accesses hi)
  rcases hs : start setup inv i m with ⟨progress, m'⟩ | ⟨e, m'⟩
  · rw [Action.final_of_ok hs] at h
    rw [Logs, Instruction.accesses_of_not_has hi, List.append_nil]
    exact h
  · rw [Action.final_of_error hs] at h
    exact logs_fault (Instruction.accessesBefore_of_not_has hi inv.address e) h

theorem logs_alone {self : Address} {act : Action (Machine σ) Control}
    (h : Logs self i m (act m)) : Logs self i m (alone act m) := by
  rw [alone, Action.bind_apply]
  generalize act m = r at h
  cases r with
  | ok control m' => exact h
  | error e m' => exact h

theorem logs_account (query : AccountQuery) :
    Logs inv.address (.account query) m (account setup query m) := by
  obtain ⟨⟨pc, ⟨words⟩, memory, output⟩, world⟩ := m
  cases words with
  | nil => exact logs_fault rfl rfl
  | cons w rest => exact world.run.log_recordRead (.ofWord w)

theorem logs_selfBalance : Logs inv.address .selfBalance m (selfBalance setup inv m) := by
  rw [selfBalance, Machine.readRun_bind, Machine.onRun_bind, pushWord_apply]
  split
  · exact m.world.run.log_recordRead inv.address
  · exact m.world.run.log_recordRead inv.address

theorem logs_extCodeCopy : Logs inv.address .extCodeCopy m (extCodeCopy setup m) := by
  obtain ⟨⟨pc, ⟨words⟩, memory, output⟩, world⟩ := m
  rw [extCodeCopy, Machine.onStack_bind]
  rcases words with - | ⟨source, - | ⟨offset, - | ⟨start, - | ⟨size, rest⟩⟩⟩⟩
  · exact logs_fault rfl rfl
  · exact logs_fault rfl rfl
  · exact logs_fault rfl rfl
  · exact logs_fault rfl rfl
  · have hpop : Stack.popN 4 ⟨source :: offset :: start :: size :: rest⟩ =
        .ok ⟨#[source, offset, start, size], rfl⟩ ⟨rest⟩ := rfl
    simp only [hpop, Machine.check_bind]
    rcases spanOf offset size with e | target
    · exact logs_fault rfl rfl
    · simp only [copyToMemory, Machine.onMemory_bind]
      rcases Memory.copyFrom _ _ _ _ memory with ⟨-, memory⟩ | ⟨e, memory⟩
      · exact world.run.log_recordRead (.ofWord source)
      · exact logs_fault rfl rfl

theorem logs_sload : Logs inv.address .sload m (sload setup inv m) := by
  obtain ⟨⟨pc, ⟨words⟩, memory, output⟩, world⟩ := m
  cases words with
  | nil => exact logs_fault rfl rfl
  | cons slot rest => exact world.run.log_recordRead inv.address

theorem logs_sstore : Logs inv.address .sstore m (sstore inv m) := by
  obtain ⟨⟨pc, ⟨words⟩, memory, output⟩, world⟩ := m
  rw [sstore, Machine.onStack_bind]
  rcases words with - | ⟨slot, - | ⟨value, rest⟩⟩
  · exact logs_fault rfl rfl
  · exact logs_fault rfl rfl
  · have hpop : Stack.popN 2 ⟨slot :: value :: rest⟩ = .ok ⟨#[slot, value], rfl⟩ ⟨rest⟩ := rfl
    simp only [hpop, Machine.note_bind, Machine.onRun_bind]
    exact Speculation.log_recordWrite _ inv.address

theorem logs_selfDestruct : Logs inv.address .selfDestruct m (selfDestruct setup inv m) := by
  obtain ⟨⟨pc, ⟨words⟩, memory, output⟩, world⟩ := m
  rw [selfDestruct, Machine.onStack_bind]
  rcases words with - | ⟨w, rest⟩
  · exact logs_fault rfl rfl
  · have hpop : Stack.pop ⟨w :: rest⟩ = .ok w ⟨rest⟩ := rfl
    simp only [hpop, Machine.readRun_bind, Machine.onRun_bind, Machine.note_bind]
    exact world.run.log_bequeath setup.committed inv.address (.ofWord w)

/-- Every instruction, as far as it comes by itself, adds just its accesses to the log. -/
theorem logs_start (setup : Setup) (inv : Invocation) (i : Instruction) (m : Machine σ) :
    Logs inv.address i m (start setup inv i m) := by
  cases hi : i.hasAccesses with
  | false => exact logs_of_not_has setup inv hi m
  | true =>
    cases i with
    | account query => exact logs_alone (logs_account query)
    | extCodeCopy => exact logs_alone logs_extCodeCopy
    | selfBalance => exact logs_alone logs_selfBalance
    | sload => exact logs_alone logs_sload
    | sstore => exact logs_alone logs_sstore
    | selfDestruct => exact logs_alone logs_selfDestruct
    | _ => cases hi

theorem not_has_of_ask {request : Request} {resolution : Resolution} {m' : Machine σ}
    (h : start setup inv i m = .ok (.ask request resolution) m') : i.hasAccesses = false := by
  cases i with
  | account | extCodeCopy | selfBalance | sload | sstore | selfDestruct =>
    exact absurd h alone_ne_ask
  | _ => rfl

end Execute

namespace Point

def accesses (setup : Setup) (p : Point) : List Access :=
  match p.opcode? with
  | none => []
  | some opcode =>
    match Interpreter.advance setup (host setup p.depth) p.inv opcode p.machine with
    | .ok _ _ => (Instruction.decode opcode).accesses p.inv.address p.machine.frame.stack.words
    | .error fault _ => (Instruction.decode opcode).accessesBefore p.inv.address fault

variable {setup : Setup} {p : Point} {opcode : UInt8}

theorem accesses_eq_nil (hop : p.opcode? = some opcode)
    (hi : (Instruction.decode opcode).hasAccesses = false) : p.accesses setup = [] := by
  simp only [accesses, hop]
  split
  · exact Instruction.accesses_of_not_has hi _ _
  · exact Instruction.accessesBefore_of_not_has hi _ _

theorem log_begun (hop : p.opcode? = some opcode) :
    (p.begun setup).run.log = p.run.log ++ p.accesses setup := by
  have h := logs_start setup p.inv (Instruction.decode opcode) (p.noted opcode)
  rw [begun_run hop]
  rcases hs : Execute.start setup p.inv (Instruction.decode opcode) (p.noted opcode) with
    ⟨control | ⟨request, resolution⟩, m⟩ | ⟨e, m⟩
  · have hx : execute setup (host setup p.depth) p.inv (Instruction.decode opcode)
        (p.noted opcode) = .ok control m := Action.bind_of_ok hs
    obtain ⟨goesOn, pc, journal, ha⟩ := advance_of_execute_ok hx
    rw [hs, Logs, noted_run, noted_frame] at h
    rw [Action.final_of_ok hs, h]
    simp only [accesses, hop, ha]
  · have hi := not_has_of_ask hs
    rw [hs, Logs, noted_run, Instruction.accesses_of_not_has hi] at h
    rw [Action.final_of_ok hs, h, accesses_eq_nil hop hi]
  · have hx : execute setup (host setup p.depth) p.inv (Instruction.decode opcode)
        (p.noted opcode) = .error e m := Action.bind_of_error hs
    have ha := advance_of_execute_error hx
    rw [hs, Logs, noted_run] at h
    rw [Action.final_of_error hs, h]
    simp only [accesses, hop, ha]

end Point

/-- The accesses at the moment: those of an instruction stand at its start. -/
def Moment.accesses (setup : Setup) : Moment → List Access
  | starts p => p.accesses setup
  | ends _ => []

theorem log_retold (setup : Setup) :
    Retold setup (fun w => w.run.log) fun log p => log ++ p.accesses setup where
  same h := congrArg (fun s : AccessSet => s.log.toList) h.accesses
  turn hop := Point.log_begun hop

theorem foldl_retell_accesses (setup : Setup) (course : List Moment) (log : List Access) :
    course.foldl (Moment.retell fun log p => log ++ p.accesses setup) log =
      log ++ course.flatMap (Moment.accesses setup) := by
  induction course generalizing log with
  | nil => exact (List.append_nil log).symm
  | cons x rest ih =>
    rw [List.foldl_cons, ih, List.flatMap_cons, ← List.append_assoc]
    cases x with
    | starts p => rfl
    | ends p => rw [Moment.accesses, List.append_nil]; rfl

open Point

/-- A run adds to the log the accesses of all instructions of its course, and nothing else. -/
theorem log_eq_course_accesses (setup : Setup) (inv : Invocation) (m : Machine Nonces) :
    ((Nesting.execute setup inv).final m).world.run.accesses.log.toList =
      m.world.run.accesses.log.toList ++
        ((start setup inv m).course setup).flatMap (Moment.accesses setup) := by
  rw [run_final_execute]
  have h := ((log_retold setup).tells (start setup inv m)).eq_foldl
  rw [foldl_retell_accesses] at h
  exact h

end SpeculativeEvm
