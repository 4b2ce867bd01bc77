import Mathlib.Algebra.Group.Nat.Defs
import SpeculativeEvm.Proofs.Nesting.Level
import SpeculativeEvm.Proofs.Nesting.Raise

/-! The classes of faults and how far each reaches. A fatal fault ends every frame around the one
that raises it, up to the whole run; any other fault ends one frame only, and the frame that asked
for it goes on as if nothing had been recorded. So what a run comes to is a fatal fault of any of
its frames, or a fault that its own frame has raised by itself. -/

namespace SpeculativeEvm

open Nesting Execute

theorem Word.ofNat?_of_lt {n : Nat} (h : n < 2 ^ 256) :
    Word.ofNat? n = some (BitVec.ofNat 256 n) := by
  rw [Word.ofNat?, BitVec.toNat_allOnes, if_pos (Nat.le_sub_one_of_lt h)]

/-- Quantities that fit in a word are all known. -/
theorem Execute.quantityOf_ne_error {setup : Setup} (hg : setup.env.gasPrice < 2 ^ 256)
    (hd : setup.env.block.difficulty < 2 ^ 256) (inv : Invocation) (frame : Frame) (q : Quantity)
    (e : Fault) : quantityOf setup inv frame q ≠ .error e := by
  have hfit (what : String) {n : Nat} (hn : n < 2 ^ 256) : fitWord what n ≠ .error e := by
    rw [fitWord, Word.ofNat?_of_lt hn]
    nofun
  cases q with
  | gasPrice => exact hfit _ hg
  | difficulty => exact hfit _ hd
  | _ => nofun

/-- Frames raise no faults of hosts, and no fatal ones if all quantities are words. -/
theorem Fault.ofFrames_classes (setup : Setup) : OfFrames setup fun e =>
    (∀ reason, e ≠ .orchestrator reason) ∧
    (setup.env.gasPrice < 2 ^ 256 → setup.env.block.difficulty < 2 ^ 256 → e.isFatal = false) where
  underflow := ⟨nofun, fun _ _ => rfl⟩
  overflow := ⟨nofun, fun _ _ => rfl⟩
  access := ⟨nofun, fun _ _ => rfl⟩
  limit _ _ := ⟨nofun, fun _ _ => rfl⟩
  opcode _ := ⟨nofun, fun _ _ => rfl⟩
  steps := ⟨nofun, fun _ _ => rfl⟩
  quantity {inv frame q e} hq := by
    refine ⟨?_, fun hg hd => absurd hq (quantityOf_ne_error hg hd inv frame q e)⟩
    rintro reason rfl
    cases of_quantityOf hq

namespace Point

/-- The frame raises `e` at the point by itself: its budget is used up, or the instruction faults
before the host is asked or when the host has answered well. -/
inductive Raises (setup : Setup) (p : Point) (e : Fault) : Prop
  | limit {opcode : UInt8} (hb : p.budget = 0)
    (hc : p.inv.code.bytes[p.machine.frame.pc]? = some opcode)
    (he : e = .stepLimitExceeded setup.settings.maxSteps) : Raises setup p e
  | start {opcode : UInt8} {m : Machine Nonces} (hop : p.opcode? = some opcode)
    (hs : Execute.start setup p.inv (Instruction.decode opcode) (p.noted opcode) = .error e m) :
    Raises setup p e
  | resolve {opcode : UInt8} {request : Request} {resolution : Resolution}
    {m m' : Machine Nonces} {w : World Nonces} (hop : p.opcode? = some opcode)
    (hs : Execute.start setup p.inv (Instruction.decode opcode) (p.noted opcode) =
      .ok (.ask request resolution) m)
    (hw : host setup p.depth p.inv request m.world = .ok () w)
    (hr : Execute.resolve resolution ⟨m.frame, w⟩ = .error e m') : Raises setup p e

/-- The fault with which the frame ends, if it does. -/
def fault? (setup : Setup) (p : Point) : Option Fault :=
  match p.result setup with
  | .ok .. => none
  | .error e _ => some e

variable {setup : Setup} {p q r : Point} {e : Fault} {t : Machine Nonces} {opcode : UInt8}

theorem fault?_eq_some_iff : p.fault? setup = some e ↔ ∃ t, p.result setup = .error e t := by
  unfold fault?
  cases p.result setup with
  | ok => simp
  | error => simp

/-- What a frame goes on to is in the frame. -/
theorem Nested.of_next {k : Nat} (hn : p.next? setup = some q) (h : Nested setup q k r) :
    Nested setup p k r := by
  induction h with
  | refl => exact .next .refl hn
  | next _ hn' ih => exact .next ih hn'
  | entered _ he ih => exact .entered ih he

theorem result_of_budget_zero (hb : p.budget = 0)
    (hc : p.inv.code.bytes[p.machine.frame.pc]? = some opcode) :
    p.result setup = .error (.stepLimitExceeded setup.settings.maxSteps) p.machine := by
  rw [result, hb, Interpreter.runFor, Interpreter.fetch_bind, hc]
  rfl

/-- An instruction faults where the instruction itself does: to move on is no fault. -/
theorem execute_of_advance_error
    (h : Interpreter.advance setup (host setup p.depth) p.inv opcode p.machine = .error e t) :
    execute setup (host setup p.depth) p.inv (Instruction.decode opcode) (p.noted opcode) =
      .error e t := by
  rcases hx : execute setup (host setup p.depth) p.inv (Instruction.decode opcode)
    (p.noted opcode) with ⟨control, m⟩ | ⟨e', m⟩
  · obtain ⟨goesOn, pc, journal, ha⟩ := advance_of_execute_ok hx
    cases h.symm.trans ha
  · cases h.symm.trans (advance_of_execute_error hx)
    rfl

/-- An instruction that raises a fault that is not fatal has it from itself, not from the host. -/
theorem raises_of_execute_error (hop : p.opcode? = some opcode) (he : e.isFatal = false)
    (h : execute setup (host setup p.depth) p.inv (Instruction.decode opcode) (p.noted opcode) =
      .error e t) : Raises setup p e := by
  rcases hs : Execute.start setup p.inv (Instruction.decode opcode) (p.noted opcode) with
    ⟨control | ⟨request, resolution⟩, m⟩ | ⟨e', m⟩
  · have hx : execute setup (host setup p.depth) p.inv (Instruction.decode opcode)
        (p.noted opcode) = .ok control m := Action.bind_of_ok hs
    cases h.symm.trans hx
  · have hx := (execute_of_ask hs).symm.trans h
    rcases hw : host setup p.depth p.inv request m.world with ⟨u, w⟩ | ⟨e', w⟩
    · rw [hw] at hx
      exact .resolve hop hs hw hx
    · rw [hw] at hx
      cases hx
      rw [host_raises setup p.depth p.inv request _ _ _ hw] at he
      cases he
  · have hx : execute setup (host setup p.depth) p.inv (Instruction.decode opcode)
        (p.noted opcode) = .error e' m := Action.bind_of_error hs
    cases h.symm.trans hx
    exact .start hop hs

/-- A fault that is not fatal and ends a frame has been raised by that frame itself. -/
theorem raises_of_result_error (he : e.isFatal = false) (h : p.result setup = .error e t) :
    ∃ q, Nested setup p 0 q ∧ q.Raises setup e := by
  induction p using induct setup with
  | ended p hop =>
    cases hc : p.inv.code.bytes[p.machine.frame.pc]? with
    | none =>
      rw [result, Interpreter.runFor_of_ended setup _ _ hc] at h
      cases h
    | some opcode =>
      have hb : p.budget = 0 := by
        rcases hb : p.budget with - | budget
        · rfl
        · cases hop.symm.trans (opcode?_eq_some_iff.2 ⟨⟨budget, hb⟩, hc⟩)
      cases h.symm.trans (result_of_budget_zero hb hc)
      exact ⟨p, .refl, .limit hb hc rfl⟩
  | turn p opcode hop _ ih =>
    cases hn : p.next? setup with
    | some n =>
      obtain ⟨q, hq, hr⟩ := ih n hn ((result_of_next hn).symm.trans h)
      exact ⟨q, .of_next hn hq, hr⟩
    | none =>
      rw [result_of_not_next hop hn] at h
      rcases ha : Interpreter.advance setup (host setup p.depth) p.inv opcode p.machine with
        ⟨goesOn, m⟩ | ⟨e', m⟩
      · rw [ha] at h
        cases h
      · rw [ha] at h
        cases h
        exact ⟨p, .refl, raises_of_execute_error hop he (execute_of_advance_error ha)⟩

/-- The instruction that asked for a frame is where a fatal fault of that frame goes on. -/
theorem advance_of_fatal (hq : p.entered? setup = some q) (he : e.isFatal = true)
    (h : q.result setup = .error e t) : ∃ opcode t', p.opcode? = some opcode ∧
      Interpreter.advance setup (host setup p.depth) p.inv opcode p.machine = .error e t' := by
  obtain ⟨opcode, hop, request, resolution, m, depth, next, w, hs, hd, hc, rfl⟩ :=
    entered?_eq_some hq
  have hp : Passed setup _ (host setup (depth + 1) p.inv request m.world) := host_passed hc
  have hx : execute setup (host setup p.depth) p.inv (Instruction.decode opcode)
      (p.noted opcode) = _ := execute_of_ask hs
  rw [hd] at hx
  generalize host setup (depth + 1) p.inv request m.world = a at hp hx
  cases hp with
  | ok hr _ =>
    rw [hr e t h] at he
    cases he
  | fatal hr _ _ =>
    cases h.symm.trans hr
    rw [← hd] at hx
    exact ⟨opcode, _, hop, advance_of_execute_error hx⟩

/-- A fatal fault that ends a frame is what every frame around it comes to, and nothing starts any
more when that frame has ended. -/
theorem result_of_fatal (hr : Reaches setup p q) (he : e.isFatal = true)
    (h : q.result setup = .error e t) : (∃ t', p.result setup = .error e t') ∧
      ∃ pre post, p.course setup = pre ++ q.course setup ++ post ∧
        ∀ x ∈ post, ∃ r t', x = .ends r ∧ r.result setup = .error e t' := by
  induction hr using Relation.ReflTransGen.head_induction_on with
  | refl => exact ⟨⟨t, h⟩, [], [], by simp⟩
  | @head p n hs _ ih =>
    obtain ⟨⟨t', ht⟩, pre, post, hcourse, hpost⟩ := ih
    rcases step_iff.1 hs with hn | hentered
    · obtain ⟨opcode, hop, -⟩ := next?_eq_some hn
      refine ⟨⟨t', (result_of_next hn).trans ht⟩,
        .starts p :: ((p.entered? setup).elim [] (course setup) ++ .ends p :: pre), post, ?_, hpost⟩
      rw [course_of_some hop, hn, Option.elim_some, hcourse]
      simp
    · obtain ⟨opcode, t'', hop, ha⟩ := advance_of_fatal hentered he ht
      have hnone : p.next? setup = none := by
        rw [next?_of_opcode hop, ha]
      have hresult : p.result setup = .error e t'' := by
        rw [result_of_not_next hop hnone, ha]
      -- the frame around stops at the instruction that asked, of which only the end is left
      refine ⟨⟨t'', hresult⟩, .starts p :: pre, post ++ [.ends p], ?_, fun x hx => ?_⟩
      · rw [course_of_some hop, hentered, hnone, Option.elim_some, hcourse]
        simp
      · rcases List.mem_append.1 hx with hx | hx
        · exact hpost x hx
        · exact ⟨p, t'', List.mem_singleton.1 hx, hresult⟩

end Point

open Point

theorem Nesting.of_execute_error {setup : Setup} {inv : Invocation} {m t : Machine Nonces}
    {e : Fault} (h : Nesting.execute setup inv m = .error e t) :
    (start setup inv m).result setup = .error e t := by
  rw [execute_eq_result] at h
  rcases hr : (start setup inv m).result setup with ⟨u, t'⟩ | ⟨e', t'⟩
  · rw [hr] at h
    cases h
  · rw [hr] at h
    cases h
    rfl

/-- A run never raises a fault of hosts, and a fatal one only for a quantity that is no word. When a
frame at any depth ends with a fatal fault, the run comes to the same fault, and all that is left
to happen is that the instructions end which asked for the frames around. A fault that is not fatal
is always one that the frame it ends has raised by itself. -/
theorem fault_classes (setup : Setup) (inv : Invocation) (m : Machine Nonces) :
    let p := start setup inv m
    (∀ e t, Nesting.execute setup inv m = .error e t →
      (∀ reason, e ≠ .orchestrator reason) ∧
      (setup.env.gasPrice < 2 ^ 256 → setup.env.block.difficulty < 2 ^ 256 →
        e.isFatal = false)) ∧
    (∀ q e t, Reaches setup p q → q.result setup = .error e t → e.isFatal = true →
      (∃ t', Nesting.execute setup inv m = .error e t') ∧
      ∃ pre post, p.course setup = pre ++ q.course setup ++ post ∧
        ∀ x ∈ post, ∃ r t', x = .ends r ∧ r.result setup = .error e t') ∧
    (∀ e t, Nesting.execute setup inv m = .error e t → e.isFatal = false →
      ∃ q, Nested setup p 0 q ∧ q.Raises setup e) ∧
    ∀ r e t, Reaches setup p r → r.result setup = .error e t → e.isFatal = false →
      ∃ q, Nested setup r 0 q ∧ q.Raises setup e := by
  intro p
  refine ⟨fun e t h => ?_, fun q e t hr h he => ?_, fun e t h he => ?_, fun r e t _ h he => ?_⟩
  · exact Interpreter.runFor_raises_of_frames (Fault.ofFrames_classes setup) p.depth inv p.budget
      p.machine e t (of_execute_error h)
  · obtain ⟨⟨t', ht⟩, hcourse⟩ := result_of_fatal hr he h
    exact ⟨⟨t', by rw [execute_eq_result, ht]⟩, hcourse⟩
  · exact raises_of_result_error he (of_execute_error h)
  · exact raises_of_result_error he h

def priceless : Setup :=
  ⟨{}, { gasPrice := 2 ^ 256 }, (Ledger.empty.setCode ⟨1⟩ #[0x3a]).committed⟩

def pricelessCaller : Invocation :=
  ⟨.zero, .zero, 0, .ofBytes #[0x5f, 0x5f, 0x5f, 0x5f, 0x5f, 0x60, 1, 0x5f, 0xf1, 0x00], #[]⟩

/-- The nested frame's fault is what the run comes to. -/
theorem priceless_ends_run :
    ∃ e t, Nesting.execute priceless pricelessCaller ⟨.fresh 64, freshWorld {}⟩ = .error e t ∧
      e.isFatal = true := by
  obtain ⟨-, hfatal, -⟩ := fault_classes priceless pricelessCaller ⟨.fresh 64, freshWorld {}⟩
  have hx : (((start priceless pricelessCaller ⟨.fresh 64, freshWorld {}⟩).course
      priceless)[15]?.bind Moment.started?).any (fun q => (q.fault? priceless).any Fault.isFatal) =
        true := by
    decide +kernel
  obtain ⟨q, hq, hany⟩ := (Option.any_eq_true _ _).1 hx
  obtain ⟨e, hfault, he⟩ := (Option.any_eq_true _ _).1 hany
  obtain ⟨x, hget, hstarted⟩ := Option.bind_eq_some_iff.1 hq
  obtain rfl := Moment.eq_starts_of_started? hstarted
  obtain ⟨hr, -⟩ := starts_mem_course_iff.1 (List.mem_of_getElem? hget)
  obtain ⟨t, h⟩ := fault?_eq_some_iff.1 hfault
  obtain ⟨⟨t', ht⟩, -⟩ := hfatal q e t hr h he
  exact ⟨e, t', ht, he⟩

end SpeculativeEvm
