import SpeculativeEvm.Proofs.Nesting.Activation
import SpeculativeEvm.Proofs.Nesting.Raise

/-! Every run ends. A frame that goes on has a step less left at the same level, since whatever runs
below it gives the level back, and a nested frame has a level less left. So the recursion of frames
goes down in the levels left and then in the steps left, jumps backwards and accounts that call each
other notwithstanding. -/

namespace SpeculativeEvm

open Nesting

namespace Interpreter

variable {σ : Type} (setup : Setup) (host : Host σ) (inv : Invocation)

theorem length_turns_le (budget : Nat) (m : Machine σ) :
    (turns setup host inv budget m).length ≤ budget := by
  induction budget generalizing m with
  | zero => exact Nat.le_refl 0
  | succ budget ih =>
    unfold turns
    split
    · exact Nat.zero_le _
    · rw [List.length_cons]
      split
      · next m' _ => exact Nat.succ_le_succ (ih m')
      · exact Nat.succ_le_succ (Nat.zero_le _)

end Interpreter

/-- The step limit that a frame exceeds is the one that is set. -/
theorem Nesting.steps_of_runFor_error {setup : Setup} {depth budget n : Nat} {inv : Invocation}
    {m t : Machine Nonces}
    (h : Interpreter.runFor setup (host setup depth) inv budget m =
      .error (.stepLimitExceeded n) t) : n = setup.settings.maxSteps := by
  let P (e : Fault) : Prop := ∀ n, e = .stepLimitExceeded n → n = setup.settings.maxSteps
  have hP : Fault.OfFrames setup P := by
    refine ⟨⟨⟨nofun, nofun⟩, nofun, nofun⟩, fun hq => ?_, nofun, ?_⟩
    · rintro n rfl
      cases Execute.of_quantityOf hq
    · exact fun n hn => (Fault.stepLimitExceeded.inj hn).symm
  exact Interpreter.runFor_raises_of_frames hP depth inv budget m _ t h n rfl

def Ending.output (e : Ending) : EStateM.Result Fault (Machine Nonces) Bytes :=
  match e.result with
  | .ok _ m => .ok m.frame.output ⟨{ m.frame with output := #[] }, m.world⟩
  | .error fault m => .error fault m

namespace Activation

/-- What the recursion uses up: the levels that may run below, then the steps. -/
def measure (setup : Setup) (a : Activation) : Nat × Nat := (a.levelsLeft setup, a.stepsLeft setup)

theorem execute_eq_output (setup : Setup) (inv : Invocation) (m : Machine Nonces) :
    Nesting.execute setup inv m = ((start inv m).ending setup).output :=
  Point.execute_eq_result setup inv m

variable {setup : Setup} {a b : Activation}

theorem steps_of_enters (h : a.Enters setup b) : b.steps = 0 := by
  cases h
  rfl

theorem levelsLeft_lt_of_enters (h : a.Enters setup b) :
    b.levelsLeft setup < a.levelsLeft setup := by
  cases h with
  | @mk opcode request resolution m next w hc hs hn hl =>
    have hm := level_of_start hs
    have hw : w.run.level = m.world.run.level := congrArg (·.level) (run_of_child hn)
    show setup.settings.maxCallDepth - (w.run.level + 1) < setup.settings.maxCallDepth - a.level
    omega

/-- A frame that goes on at its level has a step less left. -/
theorem measure_lt_of_next {m : Machine Nonces} (hs : a.steps < setup.settings.maxSteps)
    (hl : m.world.run.level = a.level) : Prod.Lex (· < ·) (· < ·)
      (measure setup ⟨a.inv, a.steps + 1, m⟩) (a.measure setup) := by
  have hlevels : levelsLeft setup ⟨a.inv, a.steps + 1, m⟩ = a.levelsLeft setup :=
    congrArg (setup.settings.maxCallDepth - ·) hl
  rw [measure, measure, hlevels]
  refine .right _ ?_
  show setup.settings.maxSteps - (a.steps + 1) < setup.settings.maxSteps - a.steps
  omega

/-- A frame within its budget has an end. -/
theorem ends_ending (setup : Setup) (a : Activation) (hs : a.steps ≤ setup.settings.maxSteps) :
    Ends setup a (a.ending setup) := by
  cases hc : a.opcode? with
  | none =>
    rw [ending_of_codeEnds hc]
    exact .codeEnds hc
  | some opcode =>
    rcases Nat.lt_or_eq_of_le hs with hlt | heq
    · have hbelow (b : Activation) (hb : a.Enters setup b) : Ends setup b (b.ending setup) := by
        have := levelsLeft_lt_of_enters hb
        exact ends_ending setup b (steps_of_enters hb ▸ Nat.zero_le _)
      have ht : a.turn setup (ending setup) opcode = _ := turn_eq_advance hc fun _ _ => rfl
      rw [ending_of_turn hc hlt]
      rcases ha : Interpreter.advance setup (host setup (a.levelsLeft setup)) a.inv opcode a.machine
        with ⟨_ | _, m⟩ | ⟨fault, m⟩
      · exact .halts hc hlt hbelow (ht.trans ha)
      · exact .goesOn hc hlt hbelow (ht.trans ha) (ends_ending setup ⟨a.inv, a.steps + 1, m⟩ hlt)
      · exact .faults hc hlt hbelow (ht.trans ha)
    · rw [ending_of_limit hc heq]
      exact .limit hc (Nat.le_of_eq heq.symm)
termination_by a.measure setup
decreasing_by
  · exact .left _ _ this
  · exact measure_lt_of_next hlt (level_of_advance ha)

theorem ends_iff (hs : a.steps ≤ setup.settings.maxSteps) (e : Ending) :
    Ends setup a e ↔ e = a.ending setup :=
  ⟨fun h => h.eq_ending hs, fun h => h ▸ ends_ending setup a hs⟩

/-- Each call of the recursion goes down. -/
theorem measure_lt_of_calls (h : Calls setup a b) :
    Prod.Lex (· < ·) (· < ·) (b.measure setup) (a.measure setup) := by
  cases h with
  | @next opcode below m hc hs hb ht =>
    have hbelow (b : Activation) (he : a.Enters setup b) : below b = b.ending setup :=
      (hb b he).eq_ending (steps_of_enters he ▸ Nat.zero_le _)
    rw [turn_eq_advance hc hbelow] at ht
    exact measure_lt_of_next hs (level_of_advance ht)
  | enter _ he => exact .left _ _ (levelsLeft_lt_of_enters he)

/-- The recursion keeps within the budget of each frame. -/
theorem steps_le_of_called (h : Relation.ReflTransGen (Calls setup) a b)
    (hs : a.steps ≤ setup.settings.maxSteps) : b.steps ≤ setup.settings.maxSteps := by
  induction h with
  | refl => exact hs
  | tail _ hc _ =>
    cases hc with
    | next _ hlt => exact hlt
    | enter _ he => exact steps_of_enters he ▸ Nat.zero_le _

theorem executed_ending_le (setup : Setup) (a : Activation) :
    (a.ending setup).executed ≤ a.stepsLeft setup :=
  Interpreter.length_turns_le setup _ a.inv _ a.machine

end Activation

open Activation

/-- A run ends, and comes to what its own frame comes to. So does every frame of it from every point
on, in one way only: it executes no more instructions than the budget allows, and if it exceeds a
step limit then the one that is set. Each call of the recursion of frames leaves fewer levels to run
below, or as many and fewer steps. -/
theorem run_ends (setup : Setup) (inv : Invocation) (m : Machine Nonces) :
    (∃ e, Ends setup (start inv m) e ∧ Nesting.execute setup inv m = e.output) ∧
    (∀ a, Relation.ReflTransGen (Calls setup) (start inv m) a →
      ∃ e, (∀ e', Ends setup a e' ↔ e' = e) ∧
        a.steps + e.executed ≤ setup.settings.maxSteps ∧
        ∀ n t, e.result = .error (.stepLimitExceeded n) t → n = setup.settings.maxSteps) ∧
    ∀ a b, Calls setup a b →
      Prod.Lex (· < ·) (· < ·)
        (setup.settings.maxCallDepth - b.level, setup.settings.maxSteps - b.steps)
        (setup.settings.maxCallDepth - a.level, setup.settings.maxSteps - a.steps) := by
  refine ⟨⟨_, ends_ending setup (start inv m) (Nat.zero_le _), execute_eq_output setup inv m⟩,
    fun a ha => ?_, fun a b h => measure_lt_of_calls h⟩
  have hs := steps_le_of_called ha (Nat.zero_le _)
  refine ⟨a.ending setup, ends_iff hs, ?_, fun n t h => steps_of_runFor_error h⟩
  have hle := executed_ending_le setup a
  unfold stepsLeft at hle
  omega

def sevenSteps : Setup := ⟨{ maxSteps := 7 }, {}, Ledger.empty.committed⟩

def loopingForever : Invocation := ⟨.zero, .zero, 0, .ofBytes #[0x5b, 0x5f, 0x56], #[]⟩

/-- The loop ends with the budget, which its first turn has made smaller. -/
theorem loopingForever_ends :
    let a := start loopingForever ⟨.fresh 64, freshWorld {}⟩
    (∃ e t, Ends sevenSteps a e ∧ e.executed ≤ 7 ∧ e.result = .error (.stepLimitExceeded 7) t) ∧
    ∃ b, Calls sevenSteps a b ∧
      Prod.Lex (· < ·) (· < ·) (1024 - b.level, 7 - b.steps) (1024 - a.level, 7 - a.steps) := by
  intro a
  obtain ⟨⟨e, he, hx⟩, hall, hcalls⟩ :=
    run_ends sevenSteps loopingForever ⟨.fresh 64, freshWorld {}⟩
  constructor
  · obtain ⟨e', hiff, hle, hlimit⟩ := hall _ .refl
    obtain rfl := (hiff e).1 he
    have herror : (match Nesting.execute sevenSteps loopingForever ⟨.fresh 64, freshWorld {}⟩ with
        | .error (.stepLimitExceeded _) _ => true
        | _ => false) = true := by
      decide +kernel
    rw [hx] at herror
    obtain ⟨executed, ⟨u, t⟩ | ⟨fault, t⟩⟩ := e
    · cases herror
    · cases fault with
      | stepLimitExceeded n =>
        obtain rfl : n = 7 := hlimit n t rfl
        have hle : 0 + executed ≤ 7 := hle
        rw [Nat.zero_add] at hle
        exact ⟨_, t, he, hle, rfl⟩
      | _ => cases herror
  · have hbelow (b : Activation) (hb : a.Enters sevenSteps b) :
        Ends sevenSteps b (b.ending sevenSteps) := by
      obtain ⟨hc, hs, -, -⟩ := hb
      obtain rfl := Option.some.inj hc
      cases hs
    have hcall : Calls sevenSteps a _ := .next rfl (by decide) hbelow rfl
    exact ⟨_, hcall, hcalls a _ hcall⟩

end SpeculativeEvm
