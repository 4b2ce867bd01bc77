import SpeculativeEvm.Proofs.Nesting.Lasting
import SpeculativeEvm.Proofs.Nesting.Resolution

/-! What an abort does to a run. It is set when a call finds no single payload below it, and from
then on nothing executes: every frame above ends with the call or creation it waits in, which leaves
its memory alone and takes its operands, and nothing that the run has recorded changes any more. The
induction is over the points of the run, each with a frame that has handed back nothing yet. -/

namespace SpeculativeEvm

open Nesting Execute

variable {σ : Type}

theorem Instruction.givesBack_of_requestArity_pos {i : Instruction} (h : 0 < i.requestArity) :
    i.givesBack = false := by
  cases i with
  | ret | revert => cases h
  | _ => rfl

/-- In a run that has not aborted, an instruction that leaves it aborted is a call or creation. -/
theorem givesUp_of_final_aborted (setup : Setup) {host : Host σ} (hf : host.FaultsInTime)
    (inv : Invocation) {i : Instruction} {m : Machine σ}
    (ha : m.world.run.outcome.aborted = false)
    (h : ((execute setup host inv i).final m).world.run.outcome.aborted = true) :
    0 < i.requestArity ∧ GivesUp i.requestArity m (execute setup host inv i m) := by
  rcases hx : execute setup host inv i m with ⟨control, m'⟩ | ⟨e, m'⟩
  · rw [Action.final_of_ok hx] at h
    obtain ⟨progress, m₁, hs, hx'⟩ := Action.of_bind_ok hx
    have he := (start_effect setup inv m i).aborted
    rw [Action.final_of_ok hs, ha] at he
    rcases progress with control' | ⟨request, resolution⟩
    · cases hx'
      rw [he] at h
      cases h
    · obtain ⟨hi, hk⟩ := start_ask setup inv hs
      obtain ⟨u, m₂, hw, hx'⟩ := Action.of_bind_ok hx'
      have hframe : m₂.frame = m₁.frame := by
        have hm := Machine.final_onWorld m₁ (host inv request)
        rw [Action.final_of_ok hw] at hm
        rw [hm]
      have hr : ((resolve resolution).final m₂).world.run.outcome.aborted = true := by
        rw [Action.final_of_ok hx']
        exact h
      obtain ⟨m₃, hm₃, hframe'⟩ := resolve_of_final_aborted hr
      rw [hx'] at hm₃
      cases hm₃
      refine ⟨hi.requestArity_pos, m', rfl, h, ?_, ?_⟩
      · rw [hframe', hframe, hk.stack]
      · rw [hframe', hframe, hk.memory]
  · rw [Action.final_of_error hx, aborted_of_execute_error setup inv hf ha hx] at h
    cases h

namespace Point

variable {setup : Setup} {p q : Point} {opcode : UInt8}

/-- The call or creation at the point ends its frame: it has taken its operands and done nothing
else to the frame. -/
structure GaveUp (setup : Setup) (p : Point) : Prop where
  stack : ∃ i, p.instruction? = some i ∧ 0 < i.requestArity ∧
    (p.after setup).frame.stack.words = p.machine.frame.stack.words.drop i.requestArity
  memory : (p.after setup).frame.memory = p.machine.frame.memory
  next : p.next? setup = none

theorem run_after (hop : p.opcode? = some opcode) : (p.after setup).world.run =
    ((execute setup (host setup p.depth) p.inv (Instruction.decode opcode)).final
      (p.noted opcode)).world.run := by
  have : IsPreorder (Machine Nonces) fun m m' => m'.world.run = m.world.run :=
    { refl := fun _ => rfl, trans := fun _ _ _ h h' => h'.trans h }
  exact after_keeps (.of_localChange fun h => congrArg World.run h.world)
    (fun event m => by rw [Machine.final_note]) setup hop

/-- An instruction that succeeds in an aborted run is the last one of its frame. -/
theorem advance_of_execute_aborted {control : Control} {m : Machine Nonces}
    (h : execute setup (host setup p.depth) p.inv (Instruction.decode opcode) (p.noted opcode) =
      .ok control m) (ha : m.world.run.outcome.aborted = true) : ∃ pc journal,
    Interpreter.advance setup (host setup p.depth) p.inv opcode p.machine =
      .ok false ⟨{ m.frame with pc }, ⟨m.world.run, m.world.host, journal⟩⟩ := by
  obtain ⟨goesOn, pc, journal, hadvance⟩ := advance_of_execute_ok h
  rcases goesOn with - | -
  · exact ⟨pc, journal, hadvance⟩
  · have hm := aborted_of_advance_true setup p.inv hadvance
    cases hm.symm.trans ha

/-- An instruction that leaves the run aborted ends its frame without a fault. -/
theorem gaveUp_of_after_aborted (ha : p.run.outcome.aborted = false)
    (h : (p.after setup).world.run.outcome.aborted = true) : p.GaveUp setup ∧
      p.result setup = .ok () (p.after setup) ∧
      (p.after setup).frame.output = p.machine.frame.output := by
  rcases hop : p.opcode? with - | opcode
  · unfold after at h
    rw [hop] at h
    cases ha.symm.trans h
  rw [run_after hop] at h
  rw [← noted_run p opcode] at ha
  obtain ⟨hi, m, hm, hma, hstack, hmemory⟩ :=
    givesUp_of_final_aborted setup (host_faultsInTime setup p.depth) p.inv ha h
  have houtput := (execute_quiet setup p.inv (host_beneath setup p.depth)
    (Instruction.givesBack_of_requestArity_pos hi) (p.noted opcode)).output
  rw [Action.final_of_ok hm] at houtput
  rw [noted_frame] at hstack hmemory houtput
  obtain ⟨pc, journal, hadvance⟩ := advance_of_execute_aborted hm hma
  have hafter : p.after setup = _ := after_of_opcode hop
  rw [Action.final_of_ok hadvance] at hafter
  have hnext : p.next? setup = _ := next?_of_opcode hop
  rw [hadvance] at hnext
  have hresult := result_of_not_next hop hnext
  rw [hadvance] at hresult
  have hinstr : p.instruction? = some (Instruction.decode opcode) := by
    rw [instruction?, hop]
    rfl
  refine ⟨⟨⟨_, hinstr, hi, ?_⟩, ?_, hnext⟩, ?_, ?_⟩
  · rw [hafter]
    exact hstack
  · rw [hafter]
    exact hmemory
  · rw [hafter, hresult]
  · rw [hafter]
    exact houtput

/-- Above a frame that ends in an aborted run, nothing more happens to the run. -/
theorem sameStatus_of_entered (he : p.entered? setup = some q)
    (h : (q.left setup).world.run.outcome.aborted = true) :
    (q.left setup).world.SameStatus (p.after setup).world := by
  obtain ⟨opcode, hop, request, resolution, m, depth, next, w, hs, hd, hc, rfl⟩ :=
    entered?_eq_some he
  have hp : Passed setup _ (host setup (depth + 1) p.inv request m.world) := host_passed hc
  rw [← hd] at hp
  refine hp.sameStatus.trans ?_
  rw [← hp.sameStatus.outcome] at h
  rw [after_of_opcode hop]
  have hx : execute setup (host setup p.depth) p.inv (Instruction.decode opcode)
      (p.noted opcode) = _ := execute_of_ask hs
  unfold Action.final at h ⊢
  rcases hw : host setup p.depth p.inv request m.world with ⟨u, w'⟩ | ⟨e, w'⟩
  · rw [hw] at h hx
    rw [afterAnswer, resolve_of_aborted h] at hx
    obtain ⟨goesOn, pc, journal, hadvance⟩ := advance_of_execute_ok hx
    rw [hadvance]
    exact ⟨⟨rfl, rfl, rfl⟩, rfl⟩
  · rw [hw] at hx
    rw [advance_of_execute_error hx]
    exact ⟨⟨rfl, rfl, rfl⟩, rfl⟩

structure Running (p : Point) : Prop where
  output : p.machine.frame.output = #[]
  aborted : p.run.outcome.aborted = false

theorem Running.next (hp : p.Running) (h : p.next? setup = some q) : q.Running :=
  ⟨(quiet_of_next h).output.trans hp.output, aborted_of_next h⟩

theorem Running.entered (hp : p.Running) (h : p.entered? setup = some q) : q.Running := by
  refine ⟨?_, (aborted_of_entered h).trans hp.aborted⟩
  obtain ⟨opcode, -, request, resolution, m, depth, next, w, -, -, -, rfl⟩ := entered?_eq_some h
  rfl

structure Freezes (setup : Setup) (p : Point) : Prop where
  moment {x : Moment} (hx : x ∈ p.course setup) (h : (x.outcome setup).aborted = true) :
    ∃ q, x = .ends q ∧ q.GaveUp setup ∧ (q.after setup).world.SameStatus (p.left setup).world
  left (h : (p.left setup).world.run.outcome.aborted = true) :
    p.result setup = .ok () (p.left setup) ∧ (p.left setup).frame.output = #[] ∧
      ∃ x ∈ p.course setup, (x.outcome setup).aborted = true

/-- An abort in the frame that the instruction asks for is the end of this frame too. -/
theorem Running.moment_below {x : Moment} (hp : p.Running) (he : p.entered? setup = some q)
    (hq : q.Freezes setup) (hx : x ∈ q.course setup) (h : (x.outcome setup).aborted = true) :
    ∃ r, x = .ends r ∧ r.GaveUp setup ∧ (r.after setup).world.SameStatus (p.left setup).world := by
  obtain ⟨opcode, hop, -⟩ := entered?_eq_some he
  obtain ⟨r, rfl, hr, hstatus⟩ := hq.moment hx h
  have hleft : (q.left setup).world.run.outcome.aborted = true := by
    rw [hstatus.outcome]
    exact h
  have hafter := sameStatus_of_entered he hleft
  rw [← hafter.outcome] at hleft
  obtain ⟨hgave, -⟩ := gaveUp_of_after_aborted hp.aborted hleft
  rw [left_of_not_next hop hgave.next]
  exact ⟨r, rfl, hr, hstatus.trans hafter⟩

theorem Running.freezes (hp : p.Running) : p.Freezes setup := by
  induction p using induct setup with
  | ended p hop =>
    refine ⟨fun {x} hx => ?_, fun h => ?_⟩
    · rw [course_of_none hop] at hx
      cases hx
    · rw [left_of_none hop] at h
      cases hp.aborted.symm.trans h
  | turn p opcode hop ihe ihn =>
    have hgave (h : (p.after setup).world.run.outcome.aborted = true) :=
      gaveUp_of_after_aborted hp.aborted h
    refine ⟨fun {x} hx h => ?_, fun h => ?_⟩
    · rw [course_of_some hop] at hx
      rcases List.mem_cons.1 hx with rfl | hx
      · cases hp.aborted.symm.trans h
      rcases List.mem_append.1 hx with hx | hx
      · rcases he : p.entered? setup with - | q
        · rw [he] at hx
          cases hx
        · rw [he] at hx
          exact hp.moment_below he (ihe q he (hp.entered he)) hx h
      rcases List.mem_cons.1 hx with rfl | hx
      · refine ⟨p, rfl, (hgave h).1, ?_⟩
        rw [left_of_not_next hop (hgave h).1.next]
        exact ⟨⟨rfl, rfl, rfl⟩, rfl⟩
      · rcases hn : p.next? setup with - | q
        · rw [hn] at hx
          cases hx
        · rw [hn] at hx
          rw [left_of_next hn]
          exact (ihn q hn (hp.next hn)).moment hx h
    · rcases hn : p.next? setup with - | q
      · rw [left_of_not_next hop hn] at h ⊢
        obtain ⟨-, hresult, houtput⟩ := hgave h
        refine ⟨hresult, houtput.trans hp.output, .ends p, ?_, h⟩
        rw [course_of_some hop]
        simp
      · rw [left_of_next hn] at h ⊢
        rw [result_of_next hn]
        obtain ⟨hresult, houtput, x, hx, hxa⟩ := (ihn q hn (hp.next hn)).left h
        refine ⟨hresult, houtput, x, ?_, hxa⟩
        rw [course_of_some hop, hn]
        simp [hx]

/-- From an aborted moment on instructions only end, the run's record and outcome stay as they are,
and the frame ends as its last instruction leaves it. -/
theorem Running.frozen_from (hp : p.Running) {pre post : List Moment} {x : Moment}
    (hc : p.course setup = pre ++ x :: post) (h : (x.outcome setup).aborted = true) :
    (∀ y ∈ x :: post, ∃ q, y = .ends q ∧ q.GaveUp setup ∧
      (x.machine setup).world.SameStatus (q.after setup).world) ∧
    (x.machine setup).world.SameStatus (p.left setup).world ∧
    ∃ q, (x :: post).getLast? = some (.ends q) ∧ p.left setup = q.after setup := by
  have hpairs := outcomes_pairwise (lasts_respected setup) p
  have hall (y : Moment) (hy : y ∈ x :: post) : (y.outcome setup).aborted = true := by
    rcases List.mem_cons.1 hy with rfl | hy
    · exact h
    · rw [outcomes, hc, List.map_append, List.map_cons, List.pairwise_cons] at hpairs
      have hx := (List.pairwise_append.1 (List.pairwise_append.1 hpairs.2).1).2.1
      exact (List.rel_of_pairwise_cons hx (List.mem_map_of_mem hy)).aborted h
  have hfrozen (y : Moment) (hy : y ∈ x :: post) := hp.freezes.moment
    (hc ▸ List.mem_append_right pre hy) (hall y hy)
  obtain ⟨r, rfl, -, hstatus⟩ := hfrozen x List.mem_cons_self
  refine ⟨fun y hy => ?_, hstatus, ?_⟩
  · obtain ⟨q, rfl, hq, hstatus'⟩ := hfrozen y hy
    exact ⟨q, rfl, hq, hstatus.trans hstatus'.symm⟩
  · rcases hop : p.opcode? with - | opcode
    · rw [course_of_none hop] at hc
      simp at hc
    · obtain ⟨q, hq, -, hleft⟩ : ∃ q, (p.course setup).getLast? = some (.ends q) ∧ _ :=
        getLast?_course hop
      rw [hc, List.getLast?_append_of_ne_nil _ (List.cons_ne_nil _ _)] at hq
      exact ⟨q, hq, hleft⟩

end Point

open Point

/-- A run of a frame that has handed back nothing, started before any abort. No mark of its outcome
is ever taken back, and when it has aborted it has not succeeded. From the moment that an abort is
set no instruction starts: those at work end, the stack of each having lost its operands alone and
its memory being the same, the record and the outcome of the run stay as they are, and the run
succeeds with no output. A run that faults has not aborted. -/
theorem abort_freezes_run (setup : Setup) (inv : Invocation) {m : Machine Nonces}
    (ho : m.frame.output = #[]) (ha : m.world.run.outcome.aborted = false) :
    let p := start setup inv m
    let final := (Nesting.execute setup inv).final m
    ((p.run.outcome :: p.outcomes setup).Pairwise Outcome.Lasts ∧
      ∀ o ∈ p.outcomes setup, o.Settled) ∧
    (∀ pre x post, p.course setup = pre ++ x :: post → (x.outcome setup).aborted = true →
      (∀ y ∈ x :: post, ∃ q, y = .ends q ∧ q.GaveUp setup ∧
        (x.machine setup).world.SameStatus (q.after setup).world) ∧
      (∃ q, (x :: post).getLast? = some (.ends q) ∧
        Nesting.execute setup inv m = .ok #[] (q.after setup)) ∧
      (x.machine setup).world.SameStatus final.world) ∧
    (final.world.run.outcome.aborted = true →
      ∃ x ∈ p.course setup, (x.outcome setup).aborted = true) ∧
    ∀ e t, Nesting.execute setup inv m = .error e t → t.world.run.outcome.aborted = false := by
  intro p final
  have hp : p.Running := ⟨ho, ha⟩
  have hsettled : p.run.outcome.Settled := by
    intro h
    cases hp.aborted.symm.trans h
  have hfinal : final.world = (p.left setup).world := run_final_execute inv m
  have hpairs := outcomes_pairwise (R := fun o o' => o.Settled → o'.Settled)
    (settled_respected setup) p
  refine ⟨⟨outcomes_pairwise (lasts_respected setup) p, fun o h => ?_⟩, fun pre x post hc h => ?_,
    fun h => ?_, fun e t he => ?_⟩
  · exact List.rel_of_pairwise_cons hpairs h hsettled
  · obtain ⟨hends, hstatus, q, hq, hafter⟩ := hp.frozen_from hc h
    have haborted : (p.left setup).world.run.outcome.aborted = true := by
      rw [hstatus.outcome]
      exact h
    obtain ⟨hresult, houtput, -⟩ := hp.freezes.left haborted
    refine ⟨hends, ⟨q, hq, ?_⟩, hfinal ▸ hstatus⟩
    rw [execute_eq_result, hresult, ← hafter]
    generalize p.left setup = t at houtput
    obtain ⟨⟨pc, stack, memory, output⟩, world⟩ := t
    obtain rfl : output = #[] := houtput
    rfl
  · rw [hfinal] at h
    exact (hp.freezes.left h).2.2
  · by_contra h
    have hx : final = t := Action.final_of_error he
    have haborted : (p.left setup).world.run.outcome.aborted = true := by
      rw [← hfinal, hx]
      simpa using h
    rw [execute_eq_result, (hp.freezes.left haborted).1] at he
    cases he

def callingNothing : Setup :=
  ⟨{}, {}, (Ledger.empty.setCode ⟨1⟩
    #[0x5f, 0x5f, 0x5f, 0x5f, 0x5f, 0x60, 2, 0x5f, 0xf1]).committed⟩

def storingAround : Invocation :=
  ⟨⟨0⟩, .zero, 0, .ofBytes #[0x60, 5, 0x60, 2, 0x55, 0x5f, 0x5f, 0x5f, 0x5f, 0x5f, 0x60, 1, 0x5f,
    0xf1, 0x60, 6, 0x60, 2, 0x55], #[]⟩

/-- The abort in account 1 ends the run with the first store in place, and without the second. -/
theorem storingAround_keeps_first :
    ∃ t, Nesting.execute callingNothing storingAround ⟨.fresh 64, freshWorld {}⟩ = .ok #[] t ∧
      t.world.run.overlay.storage? ⟨0⟩ 2 = some 5 := by
  obtain ⟨-, hfrozen, hmoment, -⟩ :=
    abort_freezes_run callingNothing storingAround (m := ⟨.fresh 64, freshWorld {}⟩) rfl rfl
  obtain ⟨x, hx, h⟩ := hmoment (by decide +kernel)
  obtain ⟨pre, post, hc⟩ := List.append_of_mem hx
  obtain ⟨-, ⟨q, -, hq⟩, -⟩ := hfrozen pre x post hc h
  refine ⟨_, hq, ?_⟩
  rw [← Action.final_of_ok hq]
  decide +kernel

end SpeculativeEvm
