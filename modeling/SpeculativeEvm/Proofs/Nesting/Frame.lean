import SpeculativeEvm.Proofs.Nesting.Course
import SpeculativeEvm.Proofs.Nesting.Tables

/-! What a frame leaves when it ends. One that runs to completion has recorded its output at its own
level, unless that is empty; one that faults has recorded nothing there, and the run has not
aborted. One induction is over the step budget of a frame, the other one over the depth beneath. -/

namespace SpeculativeEvm

open Execute Speculation

variable {σ : Type}

/-- The frame's output is the same, and only entries beneath its level have changed. -/
structure Machine.Quiet (m m' : Machine σ) : Prop where
  output : m'.frame.output = m.frame.output
  beneath : m.world.run.Beneath m'.world.run

namespace Machine.Quiet

instance : IsPreorder (Machine σ) Quiet where
  refl m := ⟨rfl, refl_of Beneath m.world.run⟩
  trans _ _ _ h h' := ⟨h'.output.trans h.output, trans_of Beneath h.beneath h'.beneath⟩

theorem parts : Parts (Quiet (σ := σ)) := by
  refine .of_localChange fun {m m'} h => ⟨h.output, ?_⟩
  rw [h.world]
  exact refl_of Beneath m.world.run

theorem note (event : Machine σ → Event) : (note event).Keeps Quiet := by
  intro m
  rw [final_note]
  exact ⟨rfl, refl_of Beneath m.world.run⟩

theorem abort : (onRun (·.abort) : Action (Machine σ) Unit).Keeps Quiet :=
  fun _ => ⟨rfl, .of_eq rfl rfl rfl⟩

end Machine.Quiet

/-- Only a run that has not aborted faults. -/
def Host.FaultsInTime (host : Host σ) : Prop :=
  ∀ ⦃inv request w e w'⦄, w.run.outcome.aborted = false → host inv request w = .error e w' →
    w'.run.outcome.aborted = false

/-- What the run holds at the level of a frame that ends, from the state in which it started. -/
def Leaves (s : Speculation) : EStateM.Result Fault (Machine σ) Unit → Prop
  | .ok _ m => m.world.run.payloads s.level = (s.handBack m.frame.output).payloads s.level
  | .error _ m =>
    m.world.run.payloads s.level = s.payloads s.level ∧ m.world.run.outcome.aborted = false

theorem Leaves.of_beneath {s t : Speculation} {r : EStateM.Result Fault (Machine σ) Unit}
    (h : s.Beneath t) (hr : Leaves t r) : Leaves s r := by
  cases r with
  | ok u m =>
    have hm : m.world.run.payloads t.level = (t.handBack m.frame.output).payloads t.level := hr
    rw [payloads_handBack, h.level, h.own] at hm
    show m.world.run.payloads s.level = (s.handBack m.frame.output).payloads s.level
    rw [hm, payloads_handBack]
  | error e m =>
    obtain ⟨hp, ha⟩ := hr
    rw [h.level, h.own] at hp
    exact ⟨hp, ha⟩

section Frame

variable (setup : Setup) {host : Host σ} (inv : Invocation)
  (hb : ∀ inv request, (host inv request).Keeps (World.Related Beneath))
  (hf : host.FaultsInTime)

theorem aborted_of_advance_true {opcode : UInt8} {m m' : Machine σ}
    (h : Interpreter.advance setup host inv opcode m = .ok true m') :
    m'.world.run.outcome.aborted = false := by
  rw [Interpreter.advance_eq, Machine.note_bind, Action.bind_apply] at h
  generalize execute setup host inv (Instruction.decode opcode) _ = r at h
  rcases r with ⟨control, m₁⟩ | ⟨e, m₁⟩
  · obtain ⟨goesOn, m₂, hm₂, hr, -, hg, -⟩ := Interpreter.moveOn_cases inv opcode control m₁
    simp only [hm₂] at h
    cases h
    rw [hr]
    exact hg rfl
  · cases h

/-- The instructions that hand back end the frame. -/
theorem advance_giveBack (host : Host σ) {opcode : UInt8}
    (hi : (Instruction.decode opcode).givesBack) (m : Machine σ) :
    (∃ m', Interpreter.advance setup host inv opcode m = .ok false m' ∧
        m'.world.run = m.world.run.handBack m'.frame.output) ∨
      ∃ e m', Interpreter.advance setup host inv opcode m = .error e m' ∧
        m'.world.run = m.world.run := by
  have hx : execute setup host inv (Instruction.decode opcode) = giveBack := by
    have hs : start setup inv (Instruction.decode opcode) = alone (σ := σ) giveBack := by
      generalize Instruction.decode opcode = i at hi
      cases i with
      | ret | revert => rfl
      | _ => cases hi
    rw [execute, hs, alone, bind_assoc]
    simp only [pure_bind, bind_pure]
  rw [Interpreter.advance_eq, Machine.note_bind, Action.bind_apply, hx]
  rcases giveBack_cases _ with ⟨m', hm, hr⟩ | ⟨e, m', hm, hl⟩
  · obtain ⟨goesOn, m₂, hm₂, hr₂, ho₂, -, hg⟩ := Interpreter.moveOn_cases inv opcode .halt m'
    refine .inl ⟨m₂, ?_, ?_⟩
    · rw [hm]
      exact (hg rfl) ▸ hm₂
    · rw [hr₂, hr, ho₂]
  · refine .inr ⟨e, m', ?_, ?_⟩
    · rw [hm]
    · rw [hl.world]

section Quiet

include hb

theorem execute_quiet {i : Instruction} (hi : i.givesBack = false) :
    (execute setup host inv i).Keeps Machine.Quiet := by
  have hs : (start setup inv i : Action (Machine σ) Progress).Keeps Machine.Quiet := fun m =>
    ⟨start_sameOutput setup inv hi m, (start_effect setup inv m i).beneath hi⟩
  refine .bind hs fun progress => ?_
  cases progress with
  | done control => exact .pure _
  | ask request resolution =>
    refine .bind (fun m => ?_) fun _ =>
      resolve_keeps Machine.Quiet.parts.data Machine.Quiet.note Machine.Quiet.abort resolution
    rw [Machine.final_onWorld]
    exact ⟨rfl, hb inv request m.world⟩

theorem advance_quiet {opcode : UInt8} (hi : (Instruction.decode opcode).givesBack = false) :
    (Interpreter.advance setup host inv opcode).Keeps Machine.Quiet := by
  rw [Interpreter.advance_eq]
  exact .bind (.note _) fun _ => .bind (execute_quiet setup inv hb hi) fun control =>
    Interpreter.moveOn_keeps Machine.Quiet.parts Machine.Quiet.note inv opcode control

end Quiet

include hf

theorem aborted_of_execute_error {i : Instruction} {m m' : Machine σ} {e : Fault}
    (ha : m.world.run.outcome.aborted = false) (h : execute setup host inv i m = .error e m') :
    m'.world.run.outcome.aborted = false := by
  have he := (start_effect setup inv m i).aborted
  unfold execute at h
  rcases hs : start setup inv i m with ⟨progress, m₁⟩ | ⟨e₁, m₁⟩
  · rw [Action.final_of_ok hs, ha] at he
    rw [Action.bind_of_ok hs] at h
    cases progress with
    | done control => cases h
    | ask request resolution =>
      simp only [Machine.onWorld_bind] at h
      rcases hw : host inv request m₁.world with ⟨u, w⟩ | ⟨e₂, w⟩
      · simp only [hw] at h
        cases hwa : w.run.outcome.aborted with
        | true =>
          rw [resolve_of_aborted hwa] at h
          cases h
        | false =>
          rw [run_of_resolve_error h]
          exact hwa
      · simp only [hw] at h
        cases h
        exact hf he hw
  · rw [Action.final_of_error hs, ha] at he
    rw [Action.bind_of_error hs] at h
    cases h
    exact he

theorem aborted_of_advance_error {opcode : UInt8} {m m' : Machine σ} {e : Fault}
    (ha : m.world.run.outcome.aborted = false)
    (h : Interpreter.advance setup host inv opcode m = .error e m') :
    m'.world.run.outcome.aborted = false := by
  rw [Interpreter.advance_eq, Machine.note_bind, Action.bind_apply] at h
  generalize hm : Machine.mk m.frame _ = m₀ at h
  have h₀ : m₀.world.run.outcome.aborted = false := by
    rw [← hm]
    exact ha
  rcases hx : execute setup host inv (Instruction.decode opcode) m₀ with ⟨control, m₁⟩ | ⟨e₁, m₁⟩
  · simp only [hx] at h
    obtain ⟨goesOn, m₂, hm₂, -⟩ := Interpreter.moveOn_cases inv opcode control m₁
    rw [hm₂] at h
    cases h
  · simp only [hx] at h
    cases h
    exact aborted_of_execute_error setup inv hf h₀ hx

include hb

/-- The output is still empty whenever an instruction starts: those that fill it end the frame. -/
theorem runFor_leaves (budget : Nat) {m : Machine σ} (ho : m.frame.output = #[])
    (ha : m.world.run.outcome.aborted = false) :
    Leaves m.world.run (Interpreter.runFor setup host inv budget m) := by
  have hend {m : Machine σ} (ho : m.frame.output = #[]) : Leaves m.world.run (.ok () m) := by
    show m.world.run.payloads _ = (m.world.run.handBack m.frame.output).payloads _
    rw [ho]
    rfl
  induction budget generalizing m with
  | zero =>
    rw [Interpreter.runFor, Interpreter.fetch_bind]
    cases inv.code.bytes[m.frame.pc]? with
    | none => exact hend ho
    | some opcode => exact ⟨rfl, ha⟩
  | succ budget ih =>
    rw [Interpreter.runFor, Interpreter.fetch_bind]
    cases inv.code.bytes[m.frame.pc]? with
    | none => exact hend ho
    | some opcode =>
      simp only [Action.bind_apply]
      cases hi : (Instruction.decode opcode).givesBack with
      | true =>
        have hg := advance_giveBack setup inv host hi m
        rcases hg with ⟨m', hm, hr⟩ | ⟨e, m', hm, hr⟩
        · rw [hm]
          show m'.world.run.payloads _ = _
          rw [hr]
        · rw [hm]
          exact ⟨by rw [hr], by rw [hr, ha]⟩
      | false =>
        have hq := advance_quiet setup inv hb hi m
        rcases hm : Interpreter.advance setup host inv opcode m with ⟨goesOn, m'⟩ | ⟨e, m'⟩
        · rw [Action.final_of_ok hm] at hq
          have ho' := hq.output.trans ho
          cases goesOn with
          | true => exact .of_beneath hq.beneath (ih ho' (aborted_of_advance_true setup inv hm))
          | false => exact .of_beneath hq.beneath (hend ho')
        · rw [Action.final_of_error hm] at hq
          exact ⟨hq.beneath.own, aborted_of_advance_error setup inv hf ha hm⟩

theorem payloads_of_run_ok {m m' : Machine σ} {output : Bytes} (ho : m.frame.output = #[])
    (ha : m.world.run.outcome.aborted = false)
    (h : Interpreter.run setup host inv m = .ok output m') :
    m'.world.run.payloads m.world.run.level =
      (m.world.run.handBack output).payloads m.world.run.level := by
  have hl := runFor_leaves setup inv hb hf setup.settings.maxSteps
    (m := ⟨{ m.frame with pc := 0 }, m.world⟩) ho ha
  rw [Interpreter.run_apply] at h
  generalize Interpreter.runFor _ _ _ _ _ = r at h hl
  cases r with
  | ok u t =>
    cases h
    exact hl
  | error e t => cases h

theorem of_run_error {m m' : Machine σ} {e : Fault} (ho : m.frame.output = #[])
    (ha : m.world.run.outcome.aborted = false)
    (h : Interpreter.run setup host inv m = .error e m') :
    m'.world.run.payloads m.world.run.level = m.world.run.payloads m.world.run.level ∧
      m'.world.run.outcome.aborted = false := by
  have hl := runFor_leaves setup inv hb hf setup.settings.maxSteps
    (m := ⟨{ m.frame with pc := 0 }, m.world⟩) ho ha
  rw [Interpreter.run_apply] at h
  generalize Interpreter.runFor _ _ _ _ _ = r at h hl
  cases r with
  | ok u t => cases h
  | error e' t =>
    cases h
    exact hl

end Frame

open Nesting

/-- For the frame that asks, an answer changes nothing but what lies beneath. -/
theorem host_beneath (setup : Setup) (depth : Nat) (inv : Invocation) (request : Request) :
    (host setup depth inv request).Keeps (World.Related Beneath) := by
  have hr := notAbove_respected setup
  have hc : (child setup inv request).Keeps (World.Related Beneath) := by
    intro w
    obtain ⟨next, nonces, hc⟩ := child_ok setup inv request w
    rw [Action.final_of_ok hc]
    exact refl_of Beneath w.run
  cases depth with
  | zero =>
    refine serve_keeps hc (fun next w => ?_) fun w a => w.run.beneath_setCreated a
    rw [Action.final_of_ok (refuse_apply w)]
    exact refl_of Beneath w.run
  | succ depth =>
    refine serve_keeps hc (fun next w => ?_) fun w a => w.run.beneath_setCreated a
    rw [World.Related, run_final_enter]
    have hn := hr.run (hr.host depth) next (entry setup w)
    exact hn.ascend

theorem host_faultsInTime (setup : Setup) (depth : Nat) : (host setup depth).FaultsInTime := by
  induction depth with
  | zero =>
    intro inv request w e w' ha h
    obtain ⟨next, nonces, hc⟩ := child_ok setup inv request w
    rw [host, serve_apply hc, refuse_apply] at h
    cases h
  | succ depth ih =>
    intro inv request w e w' ha h
    obtain ⟨next, nonces, hc⟩ := child_ok setup inv request w
    rw [host, serve_apply hc, enter_apply] at h
    rcases hm : Interpreter.run setup (host setup depth) next
      (entry setup ⟨w.run, nonces, w.journal⟩) with ⟨output, m⟩ | ⟨e', m⟩
    · rw [hm] at h
      cases h
    · rw [hm] at h
      by_cases hfatal : e'.isFatal
      · simp only [if_pos hfatal] at h
        cases h
        exact (of_run_error setup next (host_beneath setup depth) ih rfl ha hm).2
      · simp only [if_neg hfatal] at h
        cases h

namespace Point

variable {setup : Setup} {p q : Point} {opcode : UInt8}

theorem after_quiet (hop : p.opcode? = some opcode)
    (hi : (Instruction.decode opcode).givesBack = false) :
    p.machine.Quiet (p.after setup) := by
  rw [after_of_opcode hop]
  exact advance_quiet setup p.inv (host_beneath setup p.depth) hi p.machine

/-- An instruction that hands an output back ends the frame, also when it faults. -/
theorem next?_of_givesBack (hop : p.opcode? = some opcode)
    (hi : (Instruction.decode opcode).givesBack) : p.next? setup = none := by
  rw [next?_of_opcode hop]
  rcases advance_giveBack setup p.inv (host setup p.depth) hi p.machine with
    ⟨m, ha, -⟩ | ⟨e, m, ha, -⟩
  · rw [ha]
  · rw [ha]

theorem quiet_of_next (hn : p.next? setup = some q) : p.machine.Quiet q.machine := by
  obtain ⟨opcode, hop, -⟩ := next?_eq_some hn
  rw [machine_of_next hn]
  refine after_quiet hop (Bool.eq_false_iff.2 fun hi => ?_)
  rw [next?_of_givesBack hop hi] at hn
  cases hn

theorem aborted_of_next (hn : p.next? setup = some q) : q.run.outcome.aborted = false := by
  obtain ⟨opcode, -, m, ha, rfl⟩ := next?_eq_some hn
  exact aborted_of_advance_true setup p.inv ha

theorem aborted_of_entered (he : p.entered? setup = some q) :
    q.run.outcome.aborted = p.run.outcome.aborted := by
  obtain ⟨opcode, -, request, resolution, m, depth, next, w, hs, -, hc, rfl⟩ := entered?_eq_some he
  have hm := (start_effect setup p.inv (p.noted opcode) (Instruction.decode opcode)).aborted
  rw [Action.final_of_ok hs, noted_run, ← run_of_child hc] at hm
  exact hm

end Point

end SpeculativeEvm
