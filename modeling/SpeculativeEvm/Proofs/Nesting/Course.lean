import SpeculativeEvm.Proofs.Nesting.Point

/-! The course of a run: every instruction with its start and its end, in the order of execution.
The instructions of a nested frame stand between the start and the end of the call or creation that
asked for it. Facts about whole runs follow from one induction, over the points of the run: each is
followed by the frame it asks for, if any, and by the point at which its own frame goes on. -/

namespace SpeculativeEvm

open Nesting

namespace Point

/-- The code byte of the instruction that the frame executes at the point, if it executes one. -/
def opcode? (p : Point) : Option UInt8 :=
  match p.budget with
  | 0 => none
  | _ + 1 => p.inv.code.bytes[p.machine.frame.pc]?

def instruction? (p : Point) : Option Instruction := p.opcode?.map Instruction.decode

/-- The point at which the frame goes on after its instruction. -/
def next? (setup : Setup) (p : Point) : Option Point :=
  p.opcode?.bind fun opcode =>
    match Interpreter.advance setup (host setup p.depth) p.inv opcode p.machine with
    | .ok true m => some ⟨p.depth, p.budget - 1, p.inv, m⟩
    | _ => none

/-- The point at which the frame starts that the instruction asks for. -/
def entered? (setup : Setup) (p : Point) : Option Point :=
  p.opcode?.bind fun opcode =>
    match Execute.start setup p.inv (Instruction.decode opcode) (p.noted opcode) with
    | .ok (.ask request _) m =>
      match p.depth, child setup p.inv request m.world with
      | depth + 1, .ok next w => some ⟨depth, setup.settings.maxSteps, next, entry setup w⟩
      | _, _ => none
    | _ => none

/-- The machine that the instruction leaves, whether or not it faults. -/
def after (setup : Setup) (p : Point) : Machine Nonces :=
  match p.opcode? with
  | some opcode =>
    (Interpreter.advance setup (host setup p.depth) p.inv opcode).final p.machine
  | none => p.machine

/-- The result of the frame's run from the point on. -/
def result (setup : Setup) (p : Point) : EStateM.Result Fault (Machine Nonces) Unit :=
  Interpreter.runFor setup (host setup p.depth) p.inv p.budget p.machine

end Point

inductive Moment
  | starts (p : Point)
  | ends (p : Point)

namespace Moment

/-- The point whose instruction starts at the moment, if one does. -/
def started? : Moment → Option Point
  | starts p => some p
  | ends _ => none

theorem eq_starts_of_started? {x : Moment} {p : Point} (h : x.started? = some p) :
    x = .starts p := by
  cases x with
  | starts q => exact congrArg starts (Option.some.inj h)
  | ends q => cases h

end Moment

def Moment.machine (setup : Setup) : Moment → Machine Nonces
  | starts p => p.machine
  | ends p => p.after setup

namespace Point

/-- The course of a frame from a point on, given that of the frames it asks for. -/
def courseWith (setup : Setup) (below : Point → List Moment) : (budget : Nat) → Point → List Moment
  | 0, _ => []
  | budget + 1, p =>
    match p.opcode? with
    | none => []
    | some _ =>
      .starts p :: ((p.entered? setup).elim [] below ++
        .ends p :: (p.next? setup).elim [] fun q => courseWith setup below budget q)

def courseAt (setup : Setup) : (depth : Nat) → Point → List Moment
  | 0, p => courseWith setup (fun _ => []) p.budget p
  | depth + 1, p => courseWith setup (courseAt setup depth) p.budget p

/-- All that happens from a point on until its frame ends. -/
def course (setup : Setup) (p : Point) : List Moment := courseAt setup p.depth p

variable {setup : Setup} {p q : Point} {opcode : UInt8}

theorem opcode?_eq_some_iff : p.opcode? = some opcode ↔
    (∃ budget, p.budget = budget + 1) ∧ p.inv.code.bytes[p.machine.frame.pc]? = some opcode := by
  unfold opcode?
  cases p.budget with
  | zero => simp
  | succ budget => simp

theorem after_of_opcode (h : p.opcode? = some opcode) : p.after setup =
    (Interpreter.advance setup (host setup p.depth) p.inv opcode).final p.machine := by
  rw [after, h]

section Advance

variable {m : Machine Nonces}

theorem noted_run (p : Point) (opcode : UInt8) : (p.noted opcode).world.run = p.run := by
  rw [noted, Machine.final_note]
  rfl

theorem noted_frame (p : Point) (opcode : UInt8) : (p.noted opcode).frame = p.machine.frame := by
  rw [noted, Machine.final_note]

theorem advance_apply (setup : Setup) (p : Point) (opcode : UInt8) :
    Interpreter.advance setup (host setup p.depth) p.inv opcode p.machine =
      (execute setup (host setup p.depth) p.inv (Instruction.decode opcode) >>=
        Interpreter.moveOn p.inv opcode) (p.noted opcode) := by
  have hnote := Machine.note_apply p.machine fun m => .step m.frame.pc opcode m.frame.stack.depth
  rw [Interpreter.advance_eq, Action.bind_of_ok hnote, noted, Action.final_of_ok hnote]

/-- An instruction that succeeds is followed by a move of the counter at most. -/
theorem advance_of_execute_ok {control : Control}
    (h : execute setup (host setup p.depth) p.inv (Instruction.decode opcode) (p.noted opcode) =
      .ok control m) : ∃ goesOn pc journal,
    Interpreter.advance setup (host setup p.depth) p.inv opcode p.machine =
      .ok goesOn ⟨{ m.frame with pc }, ⟨m.world.run, m.world.host, journal⟩⟩ := by
  rw [advance_apply, Action.bind_of_ok h]
  exact Interpreter.moveOn_apply p.inv opcode control m

theorem advance_of_execute_error {e : Fault}
    (h : execute setup (host setup p.depth) p.inv (Instruction.decode opcode) (p.noted opcode) =
      .error e m) : Interpreter.advance setup (host setup p.depth) p.inv opcode p.machine =
      .error e m := by
  rw [advance_apply, Action.bind_of_error h]

end Advance

theorem next?_of_opcode (h : p.opcode? = some opcode) : p.next? setup =
    match Interpreter.advance setup (host setup p.depth) p.inv opcode p.machine with
    | .ok true m => some ⟨p.depth, p.budget - 1, p.inv, m⟩
    | _ => none := by
  rw [next?, h, Option.bind_some]

/-- To go on, the instruction must end well. -/
theorem next?_eq_some (h : p.next? setup = some q) : ∃ opcode, p.opcode? = some opcode ∧
    ∃ m, Interpreter.advance setup (host setup p.depth) p.inv opcode p.machine = .ok true m ∧
      q = ⟨p.depth, p.budget - 1, p.inv, m⟩ := by
  obtain ⟨opcode, hop, h⟩ := Option.bind_eq_some_iff.1 h
  refine ⟨opcode, hop, ?_⟩
  split at h
  · next m hm =>
    cases h
    exact ⟨m, hm, rfl⟩
  · cases h

/-- To go down, the instruction must be a call or creation above the deepest level. -/
theorem entered?_eq_some (h : p.entered? setup = some q) : ∃ opcode, p.opcode? = some opcode ∧
    ∃ request resolution m depth next w,
      Execute.start setup p.inv (Instruction.decode opcode) (p.noted opcode) =
        .ok (.ask request resolution) m ∧
      p.depth = depth + 1 ∧ child setup p.inv request m.world = .ok next w ∧
      q = ⟨depth, setup.settings.maxSteps, next, entry setup w⟩ := by
  obtain ⟨opcode, hop, h⟩ := Option.bind_eq_some_iff.1 h
  refine ⟨opcode, hop, ?_⟩
  split at h
  · next request resolution m hm =>
    split at h
    · next depth next w hd hc =>
      cases h
      exact ⟨request, resolution, m, depth, next, w, hm, hd, hc, rfl⟩
    · cases h
  · cases h

theorem step_iff : Step setup p q ↔ p.next? setup = some q ∨ p.entered? setup = some q := by
  constructor
  · intro h
    cases h with
    | @next opcode budget m hb hc ha =>
      have hop : p.opcode? = some opcode := opcode?_eq_some_iff.2 ⟨⟨budget, hb⟩, hc⟩
      left
      rw [next?_of_opcode hop, ha, hb]
      rfl
    | @enter opcode budget depth request resolution m next w hb hd hc ha hn =>
      have hop : p.opcode? = some opcode := opcode?_eq_some_iff.2 ⟨⟨budget, hb⟩, hc⟩
      right
      rw [entered?, hop, Option.bind_some, ha]
      simp only [hd, hn]
  · rintro (h | h)
    · obtain ⟨opcode, hop, m, ha, rfl⟩ := next?_eq_some h
      obtain ⟨⟨budget, hb⟩, hc⟩ := opcode?_eq_some_iff.1 hop
      rw [hb]
      exact .next hb hc ha
    · obtain ⟨opcode, hop, request, resolution, m, depth, next, w, hs, hd, hc, rfl⟩ :=
        entered?_eq_some h
      obtain ⟨⟨budget, hb⟩, hcode⟩ := opcode?_eq_some_iff.1 hop
      exact .enter hb hd hcode hs hc

theorem budget_of_next (h : p.next? setup = some q) :
    q.depth = p.depth ∧ p.budget = q.budget + 1 := by
  obtain ⟨opcode, hop, m, -, rfl⟩ := next?_eq_some h
  obtain ⟨⟨budget, hb⟩, -⟩ := opcode?_eq_some_iff.1 hop
  refine ⟨rfl, ?_⟩
  show p.budget = p.budget - 1 + 1
  omega

theorem depth_of_entered (h : p.entered? setup = some q) :
    p.depth = q.depth + 1 ∧ q.budget = setup.settings.maxSteps := by
  obtain ⟨opcode, -, request, resolution, m, depth, next, w, -, hd, -, rfl⟩ := entered?_eq_some h
  exact ⟨hd, rfl⟩

/-- Induction over the points of a run: a point at which the frame ends, and one that is followed by
the frame it asks for and by the frame's next point. -/
@[elab_as_elim]
theorem induct (setup : Setup) {P : Point → Prop} (ended : ∀ p, p.opcode? = none → P p)
    (turn : ∀ p opcode, p.opcode? = some opcode → (∀ q, p.entered? setup = some q → P q) →
      (∀ q, p.next? setup = some q → P q) → P p) (p : Point) : P p := by
  cases hop : p.opcode? with
  | none => exact ended p hop
  | some opcode =>
    refine turn p opcode hop (fun q hq => ?_) fun q hq => ?_
    · have := depth_of_entered hq
      exact induct setup ended turn q
    · have := budget_of_next hq
      exact induct setup ended turn q
termination_by (p.depth, p.budget)
decreasing_by
  · apply Prod.Lex.left
    omega
  · obtain ⟨hd, hb⟩ := this
    rw [hd, hb]
    apply Prod.Lex.right
    omega

/-! The course and the result by the point's followers. -/

theorem course_of_none (h : p.opcode? = none) : p.course setup = [] := by
  have hwith (below : Point → List Moment) : courseWith setup below p.budget p = [] := by
    cases p.budget with
    | zero => rfl
    | succ budget => rw [courseWith, h]
  unfold course
  cases p.depth with
  | zero => exact hwith _
  | succ depth => exact hwith _

theorem course_of_some (h : p.opcode? = some opcode) : p.course setup =
    .starts p :: ((p.entered? setup).elim [] (course setup) ++
      .ends p :: (p.next? setup).elim [] (course setup)) := by
  obtain ⟨⟨budget, hb⟩, -⟩ := opcode?_eq_some_iff.1 h
  -- the frame's next point has the same depth and the rest of the budget
  have hnext (below : Point → List Moment)
      (hc : ∀ q, q.depth = p.depth → q.course setup = courseWith setup below q.budget q) :
      (p.next? setup).elim [] (fun q => courseWith setup below budget q) =
        (p.next? setup).elim [] (course setup) := by
    cases hq : p.next? setup with
    | none => rfl
    | some q =>
      obtain ⟨hd, hbudget⟩ := budget_of_next hq
      have hbq : q.budget = budget := by omega
      rw [Option.elim_some, Option.elim_some, hc q hd, hbq]
  cases hd : p.depth with
  | zero =>
    have hentered : p.entered? setup = none := by
      cases hq : p.entered? setup with
      | none => rfl
      | some q =>
        have := (depth_of_entered hq).1
        omega
    have hc (q : Point) (hq : q.depth = p.depth) :
        q.course setup = courseWith setup (fun _ => []) q.budget q := by
      rw [course, hq, hd, courseAt]
    rw [hc p rfl, hb, courseWith, h, hnext _ hc, hentered]
    rfl
  | succ depth =>
    have hc (q : Point) (hq : q.depth = p.depth) :
        q.course setup = courseWith setup (courseAt setup depth) q.budget q := by
      rw [course, hq, hd, courseAt]
    have hentered : (p.entered? setup).elim [] (courseAt setup depth) =
        (p.entered? setup).elim [] (course setup) := by
      cases hq : p.entered? setup with
      | none => rfl
      | some q =>
        have hdq : q.depth = depth := by
          have := (depth_of_entered hq).1
          omega
        rw [Option.elim_some, Option.elim_some, course, hdq]
    rw [hc p rfl, hb, courseWith, h, hnext _ hc, hentered]

theorem result_of_next (h : p.next? setup = some q) : p.result setup = q.result setup := by
  obtain ⟨opcode, hop, m, ha, rfl⟩ := next?_eq_some h
  obtain ⟨⟨budget, hb⟩, hc⟩ := opcode?_eq_some_iff.1 hop
  rw [result, hb, Interpreter.runFor_of_opcode setup _ budget hc]
  simp only [Action.bind_of_ok ha, if_true, result, Nat.add_sub_cancel]

theorem result_of_not_next (hop : p.opcode? = some opcode) (h : p.next? setup = none) :
    p.result setup =
      match Interpreter.advance setup (host setup p.depth) p.inv opcode p.machine with
      | .ok _ m => .ok () m
      | .error e m => .error e m := by
  obtain ⟨⟨budget, hb⟩, hc⟩ := opcode?_eq_some_iff.1 hop
  rw [next?_of_opcode hop] at h
  rw [result, hb, Interpreter.runFor_of_opcode setup _ budget hc]
  rcases ha : Interpreter.advance setup (host setup p.depth) p.inv opcode p.machine with
    ⟨goesOn, m⟩ | ⟨e, m⟩
  · cases goesOn with
    | true =>
      rw [ha] at h
      cases h
    | false => exact Action.bind_of_ok ha
  · exact Action.bind_of_error ha

theorem left_of_next (h : p.next? setup = some q) : p.left setup = q.left setup := by
  have hr := result_of_next h
  unfold result at hr
  rw [left, left, Action.final, Action.final, hr]

theorem left_of_not_next (hop : p.opcode? = some opcode) (h : p.next? setup = none) :
    p.left setup = p.after setup := by
  have hr := result_of_not_next hop h
  unfold result at hr
  rw [left, after_of_opcode hop, Action.final, hr, Action.final]
  cases Interpreter.advance setup (host setup p.depth) p.inv opcode p.machine <;> rfl

theorem left_of_none (h : p.opcode? = none) : p.left setup = p.machine := by
  unfold opcode? at h
  unfold left
  cases hb : p.budget with
  | zero =>
    rw [Interpreter.runFor, Action.final, Interpreter.fetch_bind]
    cases p.inv.code.bytes[p.machine.frame.pc]? <;> rfl
  | succ budget =>
    rw [hb] at h
    rw [Action.final, Interpreter.runFor_of_ended setup _ _ h]

/-- What a run comes to is the result of its first point; it hands back the output. -/
theorem execute_eq_result (setup : Setup) (inv : Invocation) (m : Machine Nonces) :
    Nesting.execute setup inv m = match (start setup inv m).result setup with
      | .ok _ t => .ok t.frame.output ⟨{ t.frame with output := #[] }, t.world⟩
      | .error e t => .error e t := by
  rw [Nesting.execute, Machine.readRun_bind, Interpreter.run_apply]
  have hr : (start setup inv m).result setup = Interpreter.runFor setup
      (host setup (setup.settings.maxCallDepth - m.world.run.level)) inv
      setup.settings.maxSteps ⟨{ m.frame with pc := 0 }, m.world⟩ := rfl
  rw [hr]
  rcases Interpreter.runFor setup _ inv _ _ with ⟨u, t⟩ | ⟨e, t⟩ <;> rfl

/-- The machine at the next point is the one that the instruction has left. -/
theorem machine_of_next (h : p.next? setup = some q) : q.machine = p.after setup := by
  obtain ⟨opcode, hop, m, ha, rfl⟩ := next?_eq_some h
  rw [after_of_opcode hop, Action.final_of_ok ha]

/-- A frame that executes anything ends with the end of an instruction of its own. -/
theorem getLast?_course (h : p.opcode? = some opcode) : ∃ q, (p.course setup).getLast? =
    some (.ends q) ∧ q.depth = p.depth ∧ p.left setup = q.after setup := by
  induction p using induct setup generalizing opcode with
  | ended p hop =>
    rw [hop] at h
    cases h
  | turn p _ hop _ ihn =>
    have hown : p.next? setup = none ∨ (∃ n, p.next? setup = some n ∧ n.opcode? = none) →
        p.left setup = p.after setup := by
      rintro (hn | ⟨n, hn, hop'⟩)
      · exact left_of_not_next hop hn
      · rw [left_of_next hn, left_of_none hop', machine_of_next hn]
    rw [course_of_some hop, ← List.cons_append, List.getLast?_append]
    rcases hn : p.next? setup with - | n
    · exact ⟨p, by simp, rfl, hown (.inl hn)⟩
    · rcases hop' : n.opcode? with - | opcode'
      · exact ⟨p, by simp [course_of_none hop'], rfl, hown (.inr ⟨n, hn, hop'⟩)⟩
      · obtain ⟨q, hq, hd, hl⟩ := ihn n hn hop'
        refine ⟨q, ?_, hd.trans (budget_of_next hn).1, (left_of_next hn).trans hl⟩
        simp [List.getLast?_cons, hq]

/-- The instructions of the course are those at the points of the run. -/
theorem starts_mem_course_iff : .starts q ∈ p.course setup ↔
    Reaches setup p q ∧ q.opcode?.isSome := by
  constructor
  · intro h
    induction p using induct setup with
    | ended p hop =>
      rw [course_of_none hop] at h
      cases h
    | turn p opcode hop ihe ihn =>
      have hstep {r : Point} (hr : Step setup p r) (hq : Reaches setup r q ∧ q.opcode?.isSome) :
          Reaches setup p q ∧ q.opcode?.isSome := ⟨.head hr hq.1, hq.2⟩
      rw [course_of_some hop] at h
      simp only [List.mem_cons, List.mem_append, Moment.starts.injEq, reduceCtorEq,
        false_or] at h
      rcases h with rfl | h | h
      · exact ⟨.refl, by rw [hop]; rfl⟩
      · cases he : p.entered? setup with
        | none =>
          rw [he] at h
          cases h
        | some r =>
          rw [he] at h
          exact hstep (step_iff.2 (.inr he)) (ihe r he h)
      · cases hn : p.next? setup with
        | none =>
          rw [hn] at h
          cases h
        | some r =>
          rw [hn] at h
          exact hstep (step_iff.2 (.inl hn)) (ihn r hn h)
  · rintro ⟨hr, hop⟩
    induction hr using Relation.ReflTransGen.head_induction_on with
    | refl =>
      obtain ⟨opcode, hop⟩ := Option.isSome_iff_exists.1 hop
      rw [course_of_some hop]
      exact List.mem_cons_self
    | head hs _ ih =>
      rcases step_iff.1 hs with hn | he
      · obtain ⟨opcode, hop, -⟩ := next?_eq_some hn
        rw [course_of_some hop, hn]
        simp [ih]
      · obtain ⟨opcode, hop, -⟩ := entered?_eq_some he
        rw [course_of_some hop, he]
        simp [ih]

end Point

end SpeculativeEvm
