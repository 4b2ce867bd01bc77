import SpeculativeEvm.Proofs.Nesting.Course
import SpeculativeEvm.Proofs.Nesting.Tables

/-! The level of the frame at work. All frames of a run share the one counter: it goes up with each
step down into a nested frame and down again with each way back, and nothing else moves it. So at
every point of a run it tells how deep the frame at work is nested, and every frame ends at the
level at which it started, whatever it comes to. -/

namespace SpeculativeEvm

open Nesting Speculation

namespace Point

/-- `q` is a point of the run from `p`, in a frame nested `k` deep below the frame of `p`. -/
inductive Nested (setup : Setup) (p : Point) : Nat → Point → Prop
  | refl : Nested setup p 0 p
  | next {k : Nat} {q r : Point} (h : Nested setup p k q) (hn : q.next? setup = some r) :
    Nested setup p k r
  | entered {k : Nat} {q r : Point} (h : Nested setup p k q) (he : q.entered? setup = some r) :
    Nested setup p (k + 1) r

variable {setup : Setup} {p q : Point} {k : Nat}

theorem exists_nested_of_reaches (h : Reaches setup p q) : ∃ k, Nested setup p k q := by
  induction h with
  | refl => exact ⟨0, .refl⟩
  | tail _ hs ih =>
    obtain ⟨k, hk⟩ := ih
    rcases step_iff.1 hs with hn | he
    · exact ⟨k, hk.next hn⟩
    · exact ⟨k + 1, hk.entered he⟩

/-- An instruction leaves the level as it found it, with all that its nested frames do. -/
theorem level_after (setup : Setup) (p : Point) :
    (p.after setup).world.run.level = p.run.level := by
  have h := notAbove_respected setup
  cases hop : p.opcode? with
  | none =>
    rw [after, hop]
    rfl
  | some opcode =>
    rw [after_of_opcode hop]
    exact (h.advance (h.host p.depth) p.inv opcode p.machine).level

theorem level_of_next (h : p.next? setup = some q) : q.run.level = p.run.level := by
  rw [run, machine_of_next h]
  exact level_after setup p

theorem level_of_entered (h : p.entered? setup = some q) : q.run.level = p.run.level + 1 := by
  obtain ⟨opcode, -, request, resolution, m, depth, next, w, hs, -, hc, rfl⟩ := entered?_eq_some h
  have hr := notAbove_respected setup
  have hm := (hr.start p.inv (Instruction.decode opcode) (p.noted opcode)).level
  rw [Action.final_of_ok hs, noted_run, ← run_of_child hc] at hm
  exact congrArg (· + 1) hm

/-- Each level down has used up one of those that may run below. -/
theorem Nested.level (h : Nested setup p k q) :
    q.run.level = p.run.level + k ∧ q.depth + k = p.depth := by
  induction h with
  | refl => exact ⟨rfl, rfl⟩
  | next _ hn ih =>
    have hl := level_of_next hn
    have hd := (budget_of_next hn).1
    omega
  | entered _ he ih =>
    have hl := level_of_entered he
    have hd := (depth_of_entered he).1
    omega

end Point

open Point

/-- A run ends at the level at which it started, whatever it comes to. All its instructions are
those of frames nested some `k` deep, and from the start to the end of each the level is `k` above
that of the run's own frame; but for that frame none is above the deepest level. -/
theorem level_follows_nesting (setup : Setup) (inv : Invocation) (m : Machine Nonces) :
    let p := start setup inv m
    ((Nesting.execute setup inv).final m).world.run.level = m.world.run.level ∧
    (∀ q, .starts q ∈ p.course setup → ∃ k, Nested setup p k q) ∧
    ∀ k q, Nested setup p k q →
      q.run.level = m.world.run.level + k ∧
      (q.after setup).world.run.level = m.world.run.level + k ∧
      (q.left setup).world.run.level = m.world.run.level + k ∧
      (0 < k → q.run.level ≤ setup.settings.maxCallDepth) := by
  intro p
  have hr := notAbove_respected setup
  refine ⟨(hr.nestingExecute inv m).level, fun q hq => ?_, fun k q h => ?_⟩
  · exact exists_nested_of_reaches (starts_mem_course_iff.1 hq).1
  · obtain ⟨hl, hd⟩ := h.level
    have hlevel : q.run.level = m.world.run.level + k := hl
    have hdepth : q.depth + k = setup.settings.maxCallDepth - m.world.run.level := hd
    refine ⟨hlevel, (level_after setup q).trans hlevel, ?_, fun hk => ?_⟩
    · exact (hr.runFor (hr.host q.depth) q.inv q.budget q.machine).level.trans hlevel
    · omega

def callingItself : Setup :=
  ⟨{ maxCallDepth := 2 }, {}, (Ledger.empty.setCode ⟨1⟩
    #[0x5f, 0x5f, 0x5f, 0x5f, 0x5f, 0x60, 1, 0x5f, 0xf1]).committed⟩

def selfCaller : Invocation :=
  ⟨⟨1⟩, .zero, 0, .ofBytes (callingItself.committed.code ⟨1⟩), #[]⟩

/-- The calls reach the deepest level, where the last one runs nothing and aborts the run. -/
theorem selfCaller_nested_two :
    let m : Machine Nonces := ⟨.fresh 64, freshWorld {}⟩
    let final := ((Nesting.execute callingItself selfCaller).final m).world.run
    (∃ q, Nested callingItself (start callingItself selfCaller m) 2 q ∧ q.run.level ≤ 2) ∧
      final.outcome.aborted = true ∧ final.level = 0 := by
  intro m final
  obtain ⟨hfinal, hall, hlevel⟩ := level_follows_nesting callingItself selfCaller m
  refine ⟨?_, by decide +kernel, hfinal⟩
  have hx : (((start callingItself selfCaller m).course callingItself)[32]?.bind
      Moment.started?).any (fun q => decide (q.run.level = 2)) = true := by
    decide +kernel
  obtain ⟨q, hq, hdecide⟩ := (Option.any_eq_true _ _).1 hx
  obtain ⟨x, hget, hstarted⟩ := Option.bind_eq_some_iff.1 hq
  obtain rfl := Moment.eq_starts_of_started? hstarted
  obtain ⟨k, hk⟩ := hall q (List.mem_of_getElem? hget)
  obtain ⟨hl, -, -, hle⟩ := hlevel k q hk
  have hk2 : k = 2 := by
    have h2 : q.run.level = 2 := of_decide_eq_true hdecide
    have h0 : m.world.run.level = 0 := rfl
    omega
  subst hk2
  exact ⟨q, hk, hle (by omega)⟩

end SpeculativeEvm
