import SpeculativeEvm.Proofs.Nesting.Lockstep
import SpeculativeEvm.Proofs.Nesting.Resolution

/-! Old tables and the level itself do not show. What a run does depends on how many levels may
still run below it, and neither on the number of its own level nor on what the tables hold when it
starts: the frame that starts reads no entry of its own level, and each entry below is cleared
before the frame it belongs to is entered. -/

namespace SpeculativeEvm

open SpeculativeEvm.Action Machine Execute Nesting

variable {σ : Type} {own : Prop}

def Setup.withDepth (setup : Setup) (depth : Nat) : Setup :=
  { setup with settings := { setup.settings with maxCallDepth := depth } }

structure Machine.SameBesidesTables (m m' : Machine σ) : Prop where
  frame : m'.frame = m.frame
  host : m'.world.host = m.world.host
  overlay : m'.world.run.overlay = m.world.run.overlay
  accesses : m'.world.run.accesses = m.world.run.accesses
  outcome : m'.world.run.outcome = m.world.run.outcome

theorem Machine.twin_false_iff {m m' : Machine σ} : m.Twin False m' ↔ m.SameBesidesTables m' := by
  constructor
  · intro h
    exact ⟨h.frame, h.world.host, h.world.run.overlay, h.world.run.accesses, h.world.run.outcome⟩
  · intro h
    exact ⟨h.frame, ⟨h.overlay, h.accesses, h.outcome, False.elim, False.elim⟩, h.host⟩

namespace Machine.Twin

/-- An instruction by itself does not ask how deep frames may nest. -/
theorem start_withDepth (setup : Setup) (d : Nat) (inv : Invocation) (i : Instruction) :
    (Execute.start (setup.withDepth d) inv i : Action (Machine σ) Progress) =
      Execute.start setup inv i := by
  cases i <;> rfl

section Host

variable {host host' : Host σ}
  (hh : ∀ inv request, Both World.TwinBelow (host inv request) (host' inv request))
  (hb : ∀ inv request, (host inv request).Keeps (World.Related Speculation.Beneath))
  (hb' : ∀ inv request, (host' inv request).Keeps (World.Related Speculation.Beneath))
  (setup : Setup) (d : Nat) (inv : Invocation)

include hh hb hb'

theorem execute (i : Instruction) : Steps own (execute setup host inv i)
    (SpeculativeEvm.execute (setup.withDepth d) host' inv i) := by
  intro m m' h
  refine (Paired.execute Speculation.Twin.lockstep inv i (start_withDepth setup d inv i)
    (iff_paired.1 h) fun request resolution t t' hx hx' ht => ?_).mono fun _ _ => iff_paired.2
  have htwin : t.world.Twin own t'.world := ⟨ht.run, ht.host⟩
  have ha := hh inv request
    (.of_clearBelow htwin (start_ask setup inv hx).2.run (start_ask setup inv hx').2.run)
  have hk := hb inv request t.world
  have hk' := hb' inv request t'.world
  unfold Action.final at hk hk'
  generalize host inv request t.world = r at ha hk
  generalize host' inv request t'.world = r' at ha hk'
  rcases ha with ⟨hw⟩ | ⟨hw⟩
  · exact .ok (hw.paired htwin hk hk')
  · exact .error (hw.paired htwin hk hk')

theorem advance (opcode : UInt8) : Steps own (Interpreter.advance setup host inv opcode)
    (Interpreter.advance (setup.withDepth d) host' inv opcode) := by
  rw [Interpreter.advance_eq, Interpreter.advance_eq]
  exact .bind (steps_of_paired (Paired.note _ _)) fun _ =>
    .bind (execute hh hb hb' setup d inv _) fun control =>
      steps_of_paired (Paired.moveOn Speculation.Twin.lockstep inv opcode control)

theorem runFor (budget : Nat) : Steps own (Interpreter.runFor setup host inv budget)
    (Interpreter.runFor (setup.withDepth d) host' inv budget) := by
  have hfetch : Steps own (Interpreter.fetch inv : Action (Machine σ) _) (Interpreter.fetch inv) :=
    .bind (steps_of_paired Paired.pc) fun _ => .pure _
  induction budget with
  | zero =>
    refine .bind hfetch fun opcode => ?_
    split
    · exact .throw _
    · exact .pure _
  | succ budget ih =>
    refine .bind hfetch fun opcode => ?_
    rcases opcode with - | opcode
    · exact .pure _
    · refine .bind (advance hh hb hb' setup d inv opcode) fun goesOn => ?_
      split
      · exact ih
      · exact .pure _

theorem run : Steps own (Interpreter.run setup host inv)
    (Interpreter.run (setup.withDepth d) host' inv) :=
  .bind (steps_of_paired (Paired.setPc 0)) fun _ => .bind (runFor hh hb hb' setup d inv _) fun _ =>
    steps_of_paired Paired.takeOutput

end Host

end Machine.Twin

namespace Nesting

variable (setup : Setup) (d : Nat)

theorem child_both (inv : Invocation) (request : Request) : Both World.TwinBelow
    (child setup inv request) (child (setup.withDepth d) inv request) := by
  intro w v h
  obtain ⟨run, nonces, journal⟩ := w
  obtain ⟨run', nonces', journal'⟩ := v
  obtain rfl : nonces' = nonces := h.host
  cases request with
  | create value init => exact .ok ⟨h.run, rfl⟩
  | _ => exact .ok h

theorem refuse_both : Both World.TwinBelow refuse refuse := by
  intro w v h
  rw [refuse_apply, refuse_apply]
  exact .ok ⟨h.run, h.host⟩

theorem setCreated_both (a : Address) : Both World.TwinBelow
    (World.modifyRun (σ := σ) fun run => run.setCreated (run.level + 1) a)
    (World.modifyRun fun run => run.setCreated (run.level + 1) a) := by
  intro w v h
  refine .ok ⟨⟨h.run.overlay, h.run.accesses, h.run.outcome, h.run.payloads, fun _ => ?_⟩, h.host⟩
  show (v.run.setCreated (v.run.level + 1) a).created? (v.run.level + 1) =
    (w.run.setCreated (w.run.level + 1) a).created? (w.run.level + 1)
  rw [Speculation.created?_setCreated, Speculation.created?_setCreated, if_pos rfl, if_pos rfl]

theorem serve_both {descend descend' : Invocation → Action (World Nonces) Bool}
    (hd : ∀ inv, Both World.TwinBelow (descend inv) (descend' inv)) (inv : Invocation)
    (request : Request) : Both World.TwinBelow (serve setup descend inv request)
      (serve (setup.withDepth d) descend' inv request) := by
  refine .bind (child_both setup d inv request) fun next => .bind (hd next) fun completed => ?_
  split
  · exact setCreated_both next.address
  · exact .pure _

/-- The frame that asked is back at work. -/
theorem twinBelow_ascend {w v : World Nonces} {n n' : Nat} (h : w.Twin True v)
    (hw : w.run.level = n + 1) (hv : v.run.level = n' + 1) : w.ascend.TwinBelow v.ascend := by
  have hl : w.ascend.run.level + 1 = w.run.level := by
    show w.run.level - 1 + 1 = w.run.level
    omega
  have hl' : v.ascend.run.level + 1 = v.run.level := by
    show v.run.level - 1 + 1 = v.run.level
    omega
  refine ⟨⟨h.run.overlay, h.run.accesses, h.run.outcome, fun ho => ?_, fun ho => ?_⟩, h.host⟩
  · show v.run.payloads (v.ascend.run.level + 1) = w.run.payloads (w.ascend.run.level + 1)
    rw [hl, hl']
    exact h.run.payloads ho
  · show v.run.created? (v.ascend.run.level + 1) = w.run.created? (w.ascend.run.level + 1)
    rw [hl, hl']
    exact h.run.created ho

theorem enter_both (depth : Nat) (hh : ∀ inv request, Both World.TwinBelow
    (host setup depth inv request) (host (setup.withDepth d) depth inv request))
    (inv : Invocation) : Both World.TwinBelow (enter setup (host setup depth) inv)
      (enter (setup.withDepth d) (host (setup.withDepth d) depth) inv) := by
  intro w v h
  have hlevel (setup : Setup) (w : World Nonces) :
      ((Interpreter.run setup (host setup depth) inv).final (entry setup w)).world.run.level =
        w.run.level + 1 :=
    ((Speculation.notAbove_respected setup).run ((Speculation.notAbove_respected setup).host depth)
      inv (entry setup w)).level
  have hw := hlevel setup w
  have hv := hlevel (setup.withDepth d) v
  have hr := Machine.Twin.run hh (host_beneath setup depth) (host_beneath _ depth) setup d inv
    (show (entry setup w).Twin True (entry (setup.withDepth d) v) from ⟨rfl, h⟩)
  rw [enter_apply, enter_apply]
  unfold Action.final at hw hv
  generalize Interpreter.run setup (host setup depth) inv (entry setup w) = r at hr hw
  generalize Interpreter.run (setup.withDepth d) (host (setup.withDepth d) depth) inv
    (entry (setup.withDepth d) v) = r' at hr hv
  rcases hr with ⟨hm⟩ | ⟨hm⟩
  · exact .ok (twinBelow_ascend hm.world hw hv)
  · have ha := twinBelow_ascend hm.world hw hv
    simp only
    split
    · exact .error ha
    · exact .ok ⟨ha.run, ha.host⟩

/-- Hosts for as many levels answer in the same way. -/
theorem host_both (depth : Nat) (inv : Invocation) (request : Request) : Both World.TwinBelow
    (host setup depth inv request) (host (setup.withDepth d) depth inv request) := by
  induction depth generalizing inv request with
  | zero => exact serve_both setup d (fun _ => refuse_both) inv request
  | succ depth ih => exact serve_both setup d (enter_both setup d depth ih) inv request

end Nesting

/-- Runs that start from the same frame, overlay, accesses, outcome and nonces and have as many
levels left come to the same result or fault and leave these the same, whatever the levels are and
whatever the tables hold when they start. -/
theorem execute_ignores_tables (setup : Setup) (d : Nat) (inv : Invocation) {m m' : Machine Nonces}
    (h : m.SameBesidesTables m')
    (hd : d - m'.world.run.level = setup.settings.maxCallDepth - m.world.run.level) :
    Agree SameBesidesTables (Nesting.execute setup inv m)
      (Nesting.execute (setup.withDepth d) inv m') := by
  have hr := Machine.Twin.run (host_both setup d (setup.settings.maxCallDepth - m.world.run.level))
    (host_beneath setup _) (host_beneath _ _) setup d inv (twin_false_iff.2 h)
  have hx : Nesting.execute (setup.withDepth d) inv m' = Interpreter.run (setup.withDepth d)
      (host (setup.withDepth d) (setup.settings.maxCallDepth - m.world.run.level)) inv m' := by
    rw [← hd]
    rfl
  rw [hx, Nesting.execute, readRun_bind]
  exact hr.mono fun _ _ => twin_false_iff.1

def leftOver : Speculation where
  returned := (Std.ExtTreeMap.empty.insert 3 [#[1]]).insert 4 [#[8], #[9]]
  created := Std.ExtTreeMap.empty.insert 4 ⟨6⟩
  level := 3

def callingOneLater : Machine Nonces := ⟨callingOne.frame, ⟨leftOver, ∅, {}⟩⟩

/-- The call finds the one payload of its own nested frame, not those left over. -/
theorem callingOneLater_pushes_one :
    let inv : Invocation := ⟨⟨0⟩, .zero, 0, .ofBytes #[0xf1], #[]⟩
    ((Nesting.execute (handingSeven.withDepth 1027) inv).final callingOneLater).frame.stack.words =
      [1, 9] := by
  intro inv
  have hm : callingOne.SameBesidesTables callingOneLater := ⟨rfl, rfl, rfl, rfl, rfl⟩
  have h := execute_ignores_tables handingSeven 1027 inv hm rfl
  rw [h.final.frame]
  decide +kernel

end SpeculativeEvm
