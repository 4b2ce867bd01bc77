import SpeculativeEvm.Proofs.Nesting.Frame
import SpeculativeEvm.Proofs.Nesting.Lasting

/-! What the tables hold for the frames above when a frame ends. A frame leaves alone what is held
above its level, and at its level the created address too. At most one instruction of the frame
itself hands an output back, the last one, and that output is all that the payloads of its level
can gain. -/

namespace SpeculativeEvm

open Nesting Speculation

namespace Speculation

variable (s : Speculation) {output : Bytes}

/-- An output is recorded if it is new and not empty. -/
theorem own_handBack_cases : (s.handBack output).payloads s.level = s.payloads s.level ∨
    output.size ≠ 0 ∧ output ∉ s.payloads s.level ∧
      (s.handBack output).payloads s.level = s.payloads s.level ++ [output] := by
  rw [payloads_handBack]
  split
  · next h => exact .inr ⟨h.2.1, h.2.2, rfl⟩
  · exact .inl rfl

theorem mem_own_handBack (h : output.size ≠ 0) :
    output ∈ (s.handBack output).payloads s.level := by
  rw [payloads_handBack]
  split
  · exact List.mem_append_right _ List.mem_cons_self
  · next hn => exact not_not.1 fun hm => hn ⟨rfl, h, hm⟩

end Speculation

namespace Point

/-- From the point on, one of the instructions of the frame itself hands back `output`. -/
inductive HandsBack (setup : Setup) : Point → Bytes → Prop
  | here {p : Point} {opcode : UInt8} {goesOn : Bool} {m : Machine Nonces}
    (hop : p.opcode? = some opcode) (hi : (Instruction.decode opcode).givesBack)
    (h : Interpreter.advance setup (host setup p.depth) p.inv opcode p.machine = .ok goesOn m) :
    HandsBack setup p m.frame.output
  | next {p q : Point} {output : Bytes} (hn : p.next? setup = some q)
    (h : HandsBack setup q output) : HandsBack setup p output

variable {setup : Setup} {p q : Point} {opcode : UInt8} {output : Bytes}

/-- A frame that hands an output back runs to completion, and it is that output. -/
theorem HandsBack.result (h : HandsBack setup p output) : ∃ m, p.result setup = .ok () m ∧
    m.frame.output = output ∧ Leaves p.run (.ok () m) ∧
    (p.run.outcome.aborted = false → m.world.run.outcome.aborted = false) := by
  induction h with
  | @here p opcode goesOn m hop hi ha =>
    have hn : p.next? setup = none := next?_of_givesBack hop hi
    have hr := result_of_not_next hop hn
    rw [ha] at hr
    rcases advance_giveBack setup p.inv (host setup p.depth) hi p.machine with
      ⟨m', ha', hrun⟩ | ⟨e, m', ha', -⟩
    · cases ha.symm.trans ha'
      have hl : Leaves p.run (.ok () m) := congrArg (fun t => payloads t p.run.level) hrun
      refine ⟨m, hr, rfl, hl, fun hp => ?_⟩
      rw [hrun, outcome_handBack]
      exact hp
    · cases ha.symm.trans ha'
  | @next p q output hn _ ih =>
    obtain ⟨m, hr, ho, hl, ha⟩ := ih
    exact ⟨m, (result_of_next hn).trans hr, ho, hl.of_beneath (quiet_of_next hn).beneath,
      fun _ => ha (aborted_of_next hn)⟩

/-- A frame that hands nothing back changes only what lies beneath its level. -/
theorem beneath_left (h : ∀ output, ¬ HandsBack setup p output) :
    p.run.Beneath (p.left setup).world.run := by
  induction p using Point.induct setup with
  | ended p hop =>
    rw [left_of_none hop]
    exact refl_of Beneath p.run
  | turn p opcode hop _ ihn =>
    cases hi : (Instruction.decode opcode).givesBack with
    | true =>
      rw [left_of_not_next hop (next?_of_givesBack hop hi), after_of_opcode hop]
      rcases advance_giveBack setup p.inv (host setup p.depth) hi p.machine with
        ⟨m, ha, -⟩ | ⟨e, m, ha, hr⟩
      · exact absurd (.here hop hi ha) (h m.frame.output)
      · rw [Action.final_of_error ha, hr]
        exact refl_of Beneath p.run
    | false =>
      have hq : p.run.Beneath (p.after setup).world.run := (after_quiet hop hi).beneath
      rcases hn : p.next? setup with - | q
      · rwa [left_of_not_next hop hn]
      · rw [← machine_of_next hn] at hq
        rw [left_of_next hn]
        exact trans_of Beneath hq (ihn q hn fun output hb => h output (.next hn hb))

/-- What a run comes to whose frame hands an output back. -/
theorem HandsBack.execute {inv : Invocation} {m : Machine Nonces}
    (h : HandsBack setup (start setup inv m) output) :
    let s := m.world.run
    let t := ((Nesting.execute setup inv).final m).world.run
    (∃ m', Nesting.execute setup inv m = .ok output m') ∧
      t.payloads s.level = (s.handBack output).payloads s.level ∧
      (s.outcome.aborted = false → t.outcome.aborted = false) := by
  intro s t
  obtain ⟨m', hr, rfl, hl, ha⟩ := h.result
  have hx := execute_eq_result setup inv m
  rw [hr] at hx
  have ht : t = m'.world.run := congrArg (·.world.run) (Action.final_of_ok hx)
  rw [ht]
  exact ⟨⟨_, hx⟩, hl, ha⟩

end Point

open Point

/-- A frame that has run, whatever it comes to, has changed nothing that the tables hold above its
level, nor the address created at its level. Of the payloads at its level none is lost, and the one
that can be new is at the end, the output that the frame hands back itself, unless that is empty. If
the frame faults or the run aborts meanwhile, no payload is new. -/
theorem frame_keeps_tables_above (setup : Setup) (inv : Invocation) (m : Machine Nonces) :
    let p := start setup inv m
    let s := m.world.run
    let t := ((Nesting.execute setup inv).final m).world.run
    (∀ k < s.level, t.payloads k = s.payloads k) ∧
    (∀ k ≤ s.level, t.created? k = s.created? k) ∧
    (t.payloads s.level = s.payloads s.level ∨
      ∃ output m', Nesting.execute setup inv m = .ok output m' ∧ HandsBack setup p output ∧
        output.size ≠ 0 ∧ output ∉ s.payloads s.level ∧
        t.payloads s.level = s.payloads s.level ++ [output]) ∧
    (∀ output, HandsBack setup p output → output.size ≠ 0 → output ∈ t.payloads s.level) ∧
    (s.outcome.aborted = false →
      (t.outcome.aborted = true ∨ ∃ e m', Nesting.execute setup inv m = .error e m') →
      t.payloads s.level = s.payloads s.level) := by
  intro p s t
  have habove : s.NotAbove t := (notAbove_respected setup).nestingExecute inv m
  refine ⟨fun _ => habove.payloads, fun _ => habove.created, ?_⟩
  by_cases h : ∃ output, HandsBack setup p output
  · obtain ⟨output, h⟩ := h
    obtain ⟨⟨m', hx⟩, hp, ha⟩ := h.execute
    refine ⟨?_, fun output' h' hz => ?_, fun hs hd => ?_⟩
    · refine (own_handBack_cases s).imp hp.trans fun ⟨hz, hm, ho⟩ => ?_
      exact ⟨output, m', hx, h, hz, hm, hp.trans ho⟩
    · rw [h'.execute.2.1]
      exact mem_own_handBack s hz
    · rcases hd with hd | ⟨e, m₁, hd⟩
      · rw [ha hs] at hd
        cases hd
      · rw [hx] at hd
        cases hd
  · have hown : t.payloads s.level = s.payloads s.level := by
      show ((Nesting.execute setup inv).final m).world.run.payloads s.level = _
      rw [run_final_execute]
      exact (beneath_left (not_exists.1 h)).own
    exact ⟨.inl hown, fun output ho => absurd ⟨output, ho⟩ h, fun _ _ => hown⟩

def heldAbove : Speculation where
  returned := (Std.ExtTreeMap.empty.insert 1 [#[9]]).insert 2 [#[8]]
  created := Std.ExtTreeMap.empty.insert 2 ⟨6⟩
  level := 2

def sevenInMemory (words : List Word) : Machine Nonces :=
  ⟨⟨0, ⟨words⟩, ⟨#[7], 64⟩, #[]⟩, ⟨heldAbove, ∅, {}⟩⟩

/-- A single `RETURN` hands back the `7`; without its operands it faults, and nothing is new. -/
theorem sevenInMemory_adds_own :
    let setup : Setup := ⟨{}, {}, Ledger.empty.committed⟩
    let inv : Invocation := ⟨⟨0⟩, .zero, 0, .ofBytes #[0xf3], #[]⟩
    let t := ((Nesting.execute setup inv).final (sevenInMemory [0, 1])).world.run
    let t' := ((Nesting.execute setup inv).final (sevenInMemory [])).world.run
    t.payloads 1 = [#[9]] ∧ t.created? 2 = some ⟨6⟩ ∧ t.payloads 2 = [#[8], #[7]] ∧
      t'.payloads 2 = [#[8]] := by
  intro setup inv t t'
  let m := sevenInMemory [0, 1]
  obtain ⟨habove, hcreated, hown, hin, -⟩ := frame_keeps_tables_above setup inv m
  obtain ⟨m', ha, ho⟩ : ∃ m', Interpreter.advance setup (host setup (start setup inv m).depth) inv
      0xf3 (start setup inv m).machine = .ok false m' ∧ m'.frame.output = #[7] :=
    ⟨_, rfl, by decide +kernel⟩
  have hseven : #[7] ∈ t.payloads 2 := hin #[7] (ho ▸ .here rfl rfl ha) (by decide)
  have hheld : m.world.run.payloads 2 = [#[8]] := by decide +kernel
  refine ⟨(habove 1 (by decide)).trans (by decide +kernel), hcreated 2 (by decide), ?_, ?_⟩
  · rcases hown with h | ⟨output, -, -, -, -, -, h⟩
    · have h2 : t.payloads 2 = [#[8]] := h.trans hheld
      rw [h2] at hseven
      exact absurd hseven (by decide)
    · have h2 : t.payloads 2 = [#[8], output] := h.trans (congrArg (· ++ [output]) hheld)
      rw [h2] at hseven ⊢
      rcases List.mem_pair.1 hseven with h | rfl
      · exact absurd h (by decide)
      · rfl
  · obtain ⟨-, -, -, -, hdiscarded⟩ := frame_keeps_tables_above setup inv (sevenInMemory [])
    exact (hdiscarded rfl (.inr ⟨_, _, rfl⟩)).trans hheld

end SpeculativeEvm
