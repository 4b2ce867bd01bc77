import SpeculativeEvm.Interpreter
import SpeculativeEvm.Proofs.Execute.Parts

/-! How instructions are finished. What decides it for a call or creation, once the host has
answered, is whether the run has aborted by then and what the level below holds. After any
instruction an aborted run stops, and others move the counter on. -/

namespace SpeculativeEvm

namespace Execute

open Machine

variable {σ : Type}

theorem resolve_keeps {R : Machine σ → Machine σ → Prop} (h : DataParts R)
    (hn : ∀ event, (note event).Keeps R) (ha : (onRun (·.abort)).Keeps R)
    (resolution : Resolution) : (resolve resolution).Keeps R := by
  have := h.toIsPreorder
  refine .bind (readRun_keeps h _) fun aborted => ?_
  split
  · exact .pure _
  cases resolution with
  | create =>
    refine .bind (readRun_keeps h _) fun level => .bind (readRun_keeps h _) fun created => ?_
    exact .bind (hn _) fun _ => pushWord_keeps h _
  | call op output =>
    refine .bind (readRun_keeps h _) fun level => .bind (readRun_keeps h _) fun payloads => ?_
    split
    · exact .bind (hn _) fun _ => .bind (h.onMemory _) fun _ => pushWord_keeps h _
    · exact .bind (hn _) fun _ => .bind ha fun _ => .pure _
    · exact .bind (hn _) fun _ => .bind ha fun _ => .pure _

variable {m : Machine σ}

theorem resolve_of_aborted (h : m.world.run.outcome.aborted = true) (resolution : Resolution) :
    resolve resolution m = .ok .halt m := by
  unfold resolve
  rw [readRun_bind, if_pos h]
  rfl

theorem resolve_of_not_aborted (h : m.world.run.outcome.aborted = false) (resolution : Resolution) :
    resolve resolution m = match resolution with
      | .call op output => resolveCall op output m
      | .create => resolveCreate m := by
  unfold resolve
  rw [readRun_bind, h]
  cases resolution <;> rfl

theorem pushWord_apply (w : Word) : pushWord w m =
    if m.frame.stack.depth < maxStackDepth then
      .ok .next ⟨{ m.frame with stack := ⟨w :: m.frame.stack.words⟩ }, m.world⟩
    else .error .stackOverflow m := by
  rw [pushWord, onStack_bind, Stack.push]
  by_cases h : m.frame.stack.depth < maxStackDepth
  · rw [if_pos h, if_pos h]
    rfl
  · rw [if_neg h, if_neg h]

/-- Unless the level below holds exactly one payload, the run aborts. -/
theorem resolveCall_of_ne_singleton (op : String) (output : Span)
    (h : ∀ payload, m.world.run.payloads (m.world.run.level + 1) ≠ [payload]) :
    ∃ journal, resolveCall op output m =
      .ok .halt ⟨m.frame, ⟨m.world.run.abort, m.world.host, journal⟩⟩ := by
  rw [resolveCall, readRun_bind, readRun_bind]
  generalize m.world.run.payloads (m.world.run.level + 1) = payloads at h
  match payloads with
  | [] =>
    simp only [note_bind, onRun_bind]
    exact ⟨_, rfl⟩
  | [payload] => exact absurd rfl (h payload)
  | p :: q :: rest =>
    simp only [note_bind, onRun_bind]
    exact ⟨_, rfl⟩

theorem resolveCall_of_singleton (op : String) (output : Span) {payload : Bytes}
    (h : m.world.run.payloads (m.world.run.level + 1) = [payload]) :
    ∃ journal, resolveCall op output m =
      (onMemory (Memory.set output.offset output.size payload) >>= fun _ => pushWord 1)
        ⟨m.frame, ⟨m.world.run, m.world.host, journal⟩⟩ := by
  rw [resolveCall, readRun_bind, readRun_bind, h]
  simp only [note_bind]
  exact ⟨_, rfl⟩

/-- The one payload goes to memory, and 1 onto the stack. -/
theorem resolveCall_next (op : String) {output : Span} {payload : Bytes} {memory : Memory}
    (h : m.world.run.payloads (m.world.run.level + 1) = [payload])
    (hset : Memory.set output.offset output.size payload m.frame.memory = .ok () memory)
    (hroom : m.frame.stack.depth < maxStackDepth) : ∃ journal, resolveCall op output m = .ok .next
      ⟨{ m.frame with stack := ⟨1 :: m.frame.stack.words⟩, memory },
        ⟨m.world.run, m.world.host, journal⟩⟩ := by
  obtain ⟨journal, he⟩ := resolveCall_of_singleton op output h
  refine ⟨journal, ?_⟩
  rw [he, onMemory_bind, hset]
  exact (pushWord_apply 1).trans (if_pos hroom)

theorem resolveCreate_apply (m : Machine σ) : ∃ journal, resolveCreate m =
    pushWord ((m.world.run.created? (m.world.run.level + 1)).getD .zero).toWord
      ⟨m.frame, ⟨m.world.run, m.world.host, journal⟩⟩ := by
  rw [resolveCreate, readRun_bind, readRun_bind]
  simp only [note_bind]
  exact ⟨_, rfl⟩

/-- With one payload below, the run stays as it is. -/
theorem run_resolveCall_of_singleton (op : String) (output : Span) {payload : Bytes}
    (h : m.world.run.payloads (m.world.run.level + 1) = [payload]) :
    ((resolveCall op output).final m).world.run = m.world.run := by
  obtain ⟨journal, he⟩ := resolveCall_of_singleton op output h
  have := LocalChange.parts (σ := σ).toIsPreorder
  have hk : (onMemory (Memory.set output.offset output.size payload) >>= fun _ =>
      pushWord (σ := σ) 1).Keeps LocalChange :=
    .bind (LocalChange.parts.onMemory _) fun _ => pushWord_keeps LocalChange.parts.data 1
  have hw := (hk ⟨m.frame, ⟨m.world.run, m.world.host, journal⟩⟩).world
  rw [Action.final, ← he, ← Action.final] at hw
  rw [hw]

theorem run_resolveCreate (m : Machine σ) : (resolveCreate.final m).world.run = m.world.run := by
  obtain ⟨journal, he⟩ := resolveCreate_apply m
  have hk := pushWord_keeps (σ := σ) LocalChange.parts.data
    ((m.world.run.created? (m.world.run.level + 1)).getD .zero).toWord
  have hw := (hk ⟨m.frame, ⟨m.world.run, m.world.host, journal⟩⟩).world
  rw [Action.final, ← he, ← Action.final] at hw
  rw [hw]

/-- A resolution that faults leaves the run as it is. -/
theorem run_of_resolve_error {resolution : Resolution} {e : Fault} {m' : Machine σ}
    (h : resolve resolution m = .error e m') : m'.world.run = m.world.run := by
  rcases ha : m.world.run.outcome.aborted with - | -
  · rw [resolve_of_not_aborted ha] at h
    rcases resolution with ⟨op, output⟩ | -
    · by_cases hp : ∃ payload, m.world.run.payloads (m.world.run.level + 1) = [payload]
      · obtain ⟨payload, hp⟩ := hp
        have he : resolveCall op output m = .error e m' := h
        rw [← run_resolveCall_of_singleton op output hp, Action.final_of_error he]
      · obtain ⟨journal, he⟩ := resolveCall_of_ne_singleton op output (not_exists.1 hp)
        simp only [he] at h
        cases h
    · have he : resolveCreate m = .error e m' := h
      rw [← run_resolveCreate m, Action.final_of_error he]
  · rw [resolve_of_aborted ha] at h
    cases h

/-- If the run has aborted by then, a resolution halts and leaves the frame as it is. -/
theorem resolve_of_final_aborted {resolution : Resolution}
    (h : ((resolve resolution).final m).world.run.outcome.aborted = true) :
    ∃ m', resolve resolution m = .ok .halt m' ∧ m'.frame = m.frame := by
  rcases ha : m.world.run.outcome.aborted with - | -
  · have hr := resolve_of_not_aborted ha resolution
    have hrun : ((resolve resolution).final m).world.run ≠ m.world.run := by
      intro hrun
      rw [hrun, ha] at h
      cases h
    rcases resolution with ⟨op, output⟩ | -
    · have hp (payload : Bytes) : m.world.run.payloads (m.world.run.level + 1) ≠ [payload] := by
        intro hp
        apply hrun
        rw [← run_resolveCall_of_singleton op output hp, Action.final, hr, Action.final]
      obtain ⟨journal, he⟩ := resolveCall_of_ne_singleton op output hp
      exact ⟨_, hr.trans he, rfl⟩
    · exfalso
      apply hrun
      rw [← run_resolveCreate m, Action.final, hr, Action.final]
  · exact ⟨m, resolve_of_aborted ha resolution, rfl⟩

/-- A resolution reads the payloads and changes none. -/
theorem returned_final_resolve (resolution : Resolution) (m : Machine σ) :
    ((resolve resolution).final m).world.run.returned = m.world.run.returned := by
  let R (m m' : Machine σ) : Prop := m'.world.run.returned = m.world.run.returned
  have : IsPreorder (Machine σ) R :=
    { refl := fun _ => rfl, trans := fun _ _ _ h h' => h'.trans h }
  have hl : Parts R := .of_localChange fun h => congrArg (fun w => w.run.returned) h.world
  refine resolve_keeps hl.data (fun event m => ?_) (fun _ => rfl) resolution m
  show ((note event).final m).world.run.returned = m.world.run.returned
  rw [final_note]

end Execute

namespace Interpreter

open Machine

variable {σ : Type}

/-- What an instruction leaves for the frame to do: to stop, or to move the counter on. -/
def moveOn (inv : Invocation) (opcode : UInt8) (control : Control) : Action (Machine σ) Bool := do
  if ← readRun (·.outcome.aborted) then
    note fun m => .aborted m.frame.pc opcode m.world.run.level inv.address
    return false
  match control with
  | .next =>
    setPc ((← Machine.pc) + 1)
    return true
  | .jump dest =>
    setPc dest
    return true
  | .halt => return false

theorem fetch_bind {α : Type} (inv : Invocation) (f : Option UInt8 → Action (Machine σ) α)
    (m : Machine σ) : (fetch inv >>= f) m = f inv.code.bytes[m.frame.pc]? m := rfl

theorem runFor_of_opcode (setup : Setup) (host : Host σ) {inv : Invocation} {m : Machine σ}
    {opcode : UInt8} (budget : Nat) (h : inv.code.bytes[m.frame.pc]? = some opcode) :
    runFor setup host inv (budget + 1) m = (do
      if ← advance setup host inv opcode then runFor setup host inv budget) m := by
  rw [runFor, fetch_bind, h]

/-- A frame at the end of its code needs no step. -/
theorem runFor_of_ended (setup : Setup) (host : Host σ) {inv : Invocation} {m : Machine σ}
    (budget : Nat) (h : inv.code.bytes[m.frame.pc]? = none) :
    runFor setup host inv budget m = .ok () m := by
  cases budget with
  | zero =>
    rw [runFor, fetch_bind, h]
    rfl
  | succ budget =>
    rw [runFor, fetch_bind, h]
    rfl

theorem advance_eq (setup : Setup) (host : Host σ) (inv : Invocation) (opcode : UInt8) :
    advance setup host inv opcode =
      note (fun m => .step m.frame.pc opcode m.frame.stack.depth) >>= fun _ =>
        SpeculativeEvm.execute setup host inv (Instruction.decode opcode) >>= moveOn inv opcode :=
  rfl

theorem run_apply (setup : Setup) (host : Host σ) (inv : Invocation) (m : Machine σ) :
    run setup host inv m =
      match runFor setup host inv setup.settings.maxSteps ⟨{ m.frame with pc := 0 }, m.world⟩ with
      | .ok _ m' => .ok m'.frame.output ⟨{ m'.frame with output := #[] }, m'.world⟩
      | .error e m' => .error e m' := by
  rw [run, setPc_bind, Action.bind_apply]
  generalize runFor _ _ _ _ _ = r
  cases r <;> rfl

theorem moveOn_keeps {R : Machine σ → Machine σ → Prop} (h : Parts R)
    (hn : ∀ event, (note event).Keeps R) (inv : Invocation) (opcode : UInt8) (control : Control) :
    (moveOn inv opcode control).Keeps R := by
  have := h.toIsPreorder
  refine .bind (Execute.readRun_keeps h.data _) fun aborted => ?_
  split
  · exact .bind (hn _) fun _ => .pure _
  cases control with
  | next => exact .bind (Execute.pc_keeps h.data) fun _ => .bind (h.setPc _) fun _ => .pure _
  | jump dest => exact .bind (h.setPc _) fun _ => .pure _
  | halt => exact .pure _

/-- Moving on touches nothing but the counter and the journal. -/
theorem moveOn_apply (inv : Invocation) (opcode : UInt8) (control : Control) (m : Machine σ) :
    ∃ goesOn pc journal, moveOn inv opcode control m =
      .ok goesOn ⟨{ m.frame with pc }, ⟨m.world.run, m.world.host, journal⟩⟩ := by
  unfold moveOn
  rw [readRun_bind]
  cases m.world.run.outcome.aborted with
  | true =>
    simp only [if_true, note_bind]
    exact ⟨false, _, _, rfl⟩
  | false => cases control <;> exact ⟨_, _, _, rfl⟩

/-- Moving on never faults; the frame goes on only in a run that has not aborted. -/
theorem moveOn_cases (inv : Invocation) (opcode : UInt8) (control : Control) (m : Machine σ) :
    ∃ goesOn m', moveOn inv opcode control m = .ok goesOn m' ∧ m'.world.run = m.world.run ∧
      m'.frame.output = m.frame.output ∧ (goesOn = true → m.world.run.outcome.aborted = false) ∧
      (control = .halt → goesOn = false) := by
  unfold moveOn
  rw [readRun_bind]
  cases ha : m.world.run.outcome.aborted with
  | true =>
    simp only [if_true, note_bind]
    exact ⟨false, _, rfl, rfl, rfl, nofun, fun _ => rfl⟩
  | false =>
    cases control with
    | next => exact ⟨true, _, rfl, rfl, rfl, fun _ => rfl, nofun⟩
    | jump dest => exact ⟨true, _, rfl, rfl, rfl, fun _ => rfl, nofun⟩
    | halt => exact ⟨false, _, rfl, rfl, rfl, nofun, fun _ => rfl⟩

end Interpreter

end SpeculativeEvm
