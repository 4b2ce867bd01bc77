import SpeculativeEvm.Proofs.Fetch
import SpeculativeEvm.Proofs.Nesting.Tables

/-! Frames at work without bounds given in advance. The run of a frame is computed by recursion on a
step budget and on the number of levels that may run below. Here a frame carries neither: it
compares its steps with the settings before each instruction, and its level before each nested
frame. What it comes to is a relation, since nothing says yet that it comes to an end; where it
does, it is to the end that the computed run has. -/

namespace SpeculativeEvm

open Nesting Speculation

structure Activation where
  inv : Invocation
  /-- The number of instructions that the frame has executed so far. -/
  steps : Nat
  machine : Machine Nonces

structure Ending where
  /-- The number of instructions that the frame still executes, those of nested frames apart. -/
  executed : Nat
  result : EStateM.Result Fault (Machine Nonces) Unit

/-- The end of a nested frame as its caller sees it. -/
def Ending.ascend (inv : Invocation) (e : Ending) : EStateM.Result Fault (World Nonces) Bool :=
  match e.result with
  | .ok _ m => .ok true m.world.ascend
  | .error fault m =>
    if fault.isFatal then .error fault m.world.ascend
    else .ok false { m.world.ascend with
      journal := m.world.journal.note
        (.childFailed inv.address (m.world.ascend.run.level + 1) fault) }

namespace Activation

def start (inv : Invocation) (m : Machine Nonces) : Activation :=
  ⟨inv, 0, ⟨{ m.frame with pc := 0 }, m.world⟩⟩

def opcode? (a : Activation) : Option UInt8 := a.inv.code.bytes[a.machine.frame.pc]?

def level (a : Activation) : Nat := a.machine.world.run.level

def noted (a : Activation) (opcode : UInt8) : Machine Nonces :=
  (Machine.note fun m => .step m.frame.pc opcode m.frame.stack.depth).final a.machine

/-- The instruction of `a` asks for a frame, and its level lets it run. -/
inductive Enters (setup : Setup) (a : Activation) : Activation → Prop
  | mk {opcode : UInt8} {request : Request} {resolution : Resolution} {m : Machine Nonces}
    {next : Invocation} {w : World Nonces} (hc : a.opcode? = some opcode)
    (hs : Execute.start setup a.inv (Instruction.decode opcode) (a.noted opcode) =
      .ok (.ask request resolution) m)
    (hn : child setup a.inv request m.world = .ok next w)
    (hl : w.run.level < setup.settings.maxCallDepth) : Enters setup a (start next (entry setup w))

/-- Runs a frame one level down if the level lets it run; `below` tells what it comes to. -/
def goDown (setup : Setup) (below : Activation → Ending) (next : Invocation) :
    Action (World Nonces) Bool := fun w =>
  if setup.settings.maxCallDepth ≤ w.run.level then refuse w
  else (below (start next (entry setup w))).ascend next

/-- Answers requests by the level. -/
def hostOf (setup : Setup) (below : Activation → Ending) : Host Nonces :=
  serve setup (goDown setup below)

/-- The instruction `opcode` with nested frames that come to what `below` tells. -/
def turn (setup : Setup) (below : Activation → Ending) (opcode : UInt8) (a : Activation) :
    EStateM.Result Fault (Machine Nonces) Bool :=
  Interpreter.advance setup (hostOf setup below) a.inv opcode a.machine

/-- What a frame comes to, if to anything: a derivation is a run that ends. What `below` tells
matters, and must be true, for the frame that the instruction asks for. -/
inductive Ends (setup : Setup) : Activation → Ending → Prop
  | codeEnds {a : Activation} (hc : a.opcode? = none) : Ends setup a ⟨0, .ok () a.machine⟩
  | limit {a : Activation} {opcode : UInt8} (hc : a.opcode? = some opcode)
    (hs : setup.settings.maxSteps ≤ a.steps) :
    Ends setup a ⟨0, .error (.stepLimitExceeded a.steps) a.machine⟩
  | goesOn {a : Activation} {opcode : UInt8} {below : Activation → Ending} {m : Machine Nonces}
    {e : Ending} (hc : a.opcode? = some opcode) (hs : a.steps < setup.settings.maxSteps)
    (hb : ∀ b, a.Enters setup b → Ends setup b (below b))
    (ht : a.turn setup below opcode = .ok true m) (he : Ends setup ⟨a.inv, a.steps + 1, m⟩ e) :
    Ends setup a ⟨e.executed + 1, e.result⟩
  | halts {a : Activation} {opcode : UInt8} {below : Activation → Ending} {m : Machine Nonces}
    (hc : a.opcode? = some opcode) (hs : a.steps < setup.settings.maxSteps)
    (hb : ∀ b, a.Enters setup b → Ends setup b (below b))
    (ht : a.turn setup below opcode = .ok false m) : Ends setup a ⟨1, .ok () m⟩
  | faults {a : Activation} {opcode : UInt8} {below : Activation → Ending} {m : Machine Nonces}
    {fault : Fault} (hc : a.opcode? = some opcode) (hs : a.steps < setup.settings.maxSteps)
    (hb : ∀ b, a.Enters setup b → Ends setup b (below b))
    (ht : a.turn setup below opcode = .error fault m) : Ends setup a ⟨1, .error fault m⟩

/-- The recursion of frames: from each instruction to the next one, and down into nested frames. -/
inductive Calls (setup : Setup) (a : Activation) : Activation → Prop
  | next {opcode : UInt8} {below : Activation → Ending} {m : Machine Nonces}
    (hc : a.opcode? = some opcode) (hs : a.steps < setup.settings.maxSteps)
    (hb : ∀ b, a.Enters setup b → Ends setup b (below b))
    (ht : a.turn setup below opcode = .ok true m) : Calls setup a ⟨a.inv, a.steps + 1, m⟩
  | enter {b : Activation} (hs : a.steps < setup.settings.maxSteps) (he : a.Enters setup b) :
    Calls setup a b

/-! The computed run. -/

def levelsLeft (setup : Setup) (a : Activation) : Nat := setup.settings.maxCallDepth - a.level

def stepsLeft (setup : Setup) (a : Activation) : Nat := setup.settings.maxSteps - a.steps

/-- What the frame comes to with the steps and the levels that are left. -/
def ending (setup : Setup) (a : Activation) : Ending where
  executed := (Interpreter.turns setup (host setup (a.levelsLeft setup)) a.inv (a.stepsLeft setup)
    a.machine).length
  result := Interpreter.runFor setup (host setup (a.levelsLeft setup)) a.inv (a.stepsLeft setup)
    a.machine

end Activation

namespace Interpreter

variable {σ : Type}

/-- An instruction asks its host for one thing at most, in the world as it is by then. -/
theorem advance_congr (setup : Setup) {host host' : Host σ} {inv : Invocation} {opcode : UInt8}
    {m : Machine σ}
    (h : ∀ request resolution m', Execute.start setup inv (Instruction.decode opcode)
      ((Machine.note fun m => .step m.frame.pc opcode m.frame.stack.depth).final m) =
        .ok (.ask request resolution) m' →
      host inv request m'.world = host' inv request m'.world) :
    advance setup host inv opcode m = advance setup host' inv opcode m := by
  rw [Machine.final_note] at h
  rw [advance_eq, advance_eq, Machine.note_bind, Machine.note_bind, Action.bind_apply,
    Action.bind_apply]
  generalize Machine.mk m.frame _ = m₀ at h ⊢
  have hx : execute setup host inv (Instruction.decode opcode) m₀ =
      execute setup host' inv (Instruction.decode opcode) m₀ := by
    unfold execute
    rcases hs : Execute.start setup inv (Instruction.decode opcode) m₀ with
      ⟨control | ⟨request, resolution⟩, m'⟩ | ⟨e, m'⟩
    · rw [Action.bind_of_ok hs, Action.bind_of_ok hs]
    · rw [Action.bind_of_ok hs, Action.bind_of_ok hs]
      simp only [Machine.onWorld_bind, h request resolution m' hs]
    · rw [Action.bind_of_error hs, Action.bind_of_error hs]
  rw [hx]

end Interpreter

namespace Activation

variable {setup : Setup} {a b : Activation} {opcode : UInt8}

theorem enter_eq_ascend (setup : Setup) (host : Host Nonces) (inv : Invocation) (w : World Nonces)
    (n : Nat) : enter setup host inv w = Ending.ascend inv ⟨n, Interpreter.runFor setup host inv
      setup.settings.maxSteps (start inv (entry setup w)).machine⟩ := by
  rw [enter_apply, Interpreter.run_apply, Ending.ascend]
  have hm : (start inv (entry setup w)).machine =
      ⟨{ (entry setup w).frame with pc := 0 }, (entry setup w).world⟩ := rfl
  rw [hm]
  rcases Interpreter.runFor setup host inv _ _ with ⟨u, m⟩ | ⟨e, m⟩ <;> rfl

/-- To count the levels that are left is to look at the level of the caller. -/
theorem host_eq_hostOf (setup : Setup) (inv : Invocation) (request : Request) (w : World Nonces) :
    host setup (setup.settings.maxCallDepth - w.run.level) inv request w =
      hostOf setup (ending setup) inv request w := by
  obtain ⟨next, nonces, hc⟩ := child_ok setup inv request w
  rw [hostOf, serve_apply hc, goDown]
  by_cases hd : setup.settings.maxCallDepth ≤ w.run.level
  · rw [if_pos hd, Nat.sub_eq_zero_of_le hd, host, serve_apply hc]
  · obtain ⟨depth, hdepth⟩ : ∃ depth, setup.settings.maxCallDepth - w.run.level = depth + 1 :=
      ⟨setup.settings.maxCallDepth - w.run.level - 1, by omega⟩
    have hl : setup.settings.maxCallDepth - (w.run.level + 1) = depth := by omega
    rw [if_neg hd, hdepth, host, serve_apply hc, enter_eq_ascend setup _ _ _ 0]
    have he : (ending setup (start next (entry setup ⟨w.run, nonces, w.journal⟩))).result =
        Interpreter.runFor setup (host setup depth) next setup.settings.maxSteps
          (start next (entry setup ⟨w.run, nonces, w.journal⟩)).machine := by
      rw [← hl]
      rfl
    rw [Ending.ascend, Ending.ascend, he]

theorem hostOf_congr {below below' : Activation → Ending} {inv : Invocation} {request : Request}
    {w : World Nonces}
    (h : ∀ next w', child setup inv request w = .ok next w' →
      w'.run.level < setup.settings.maxCallDepth →
      below (start next (entry setup w')) = below' (start next (entry setup w'))) :
    hostOf setup below inv request w = hostOf setup below' inv request w := by
  obtain ⟨next, nonces, hc⟩ := child_ok setup inv request w
  rw [hostOf, hostOf, serve_apply hc, serve_apply hc, goDown, goDown]
  by_cases hd : setup.settings.maxCallDepth ≤ w.run.level
  · rw [if_pos hd, if_pos hd]
  · rw [if_neg hd, if_neg hd, h next _ hc (Nat.lt_of_not_le hd)]

theorem turn_congr {below below' : Activation → Ending} (hc : a.opcode? = some opcode)
    (h : ∀ b, a.Enters setup b → below b = below' b) :
    a.turn setup below opcode = a.turn setup below' opcode :=
  Interpreter.advance_congr setup fun _ _ _ hs =>
    hostOf_congr fun _ _ hn hl => h _ (.mk hc hs hn hl)

theorem level_of_start {m : Machine Nonces} {progress : Progress}
    (h : Execute.start setup a.inv (Instruction.decode opcode) (a.noted opcode) = .ok progress m) :
    m.world.run.level = a.level := by
  have hl := ((notAbove_respected setup).start a.inv (Instruction.decode opcode)
    (a.noted opcode)).level
  rw [Action.final_of_ok h, noted, Machine.final_note] at hl
  exact hl

/-- A true account of the nested frames makes the turn the computed one. -/
theorem turn_eq_advance {below : Activation → Ending} (hc : a.opcode? = some opcode)
    (h : ∀ b, a.Enters setup b → below b = ending setup b) :
    a.turn setup below opcode =
      Interpreter.advance setup (host setup (a.levelsLeft setup)) a.inv opcode a.machine := by
  rw [turn_congr hc h]
  refine Interpreter.advance_congr setup fun request resolution m hs => ?_
  rw [← host_eq_hostOf, level_of_start hs]
  rfl

/-- The level is back when the frame goes on. -/
theorem level_of_advance {depth : Nat} {goesOn : Bool} {m : Machine Nonces}
    (h : Interpreter.advance setup (host setup depth) a.inv opcode a.machine = .ok goesOn m) :
    m.world.run.level = a.level := by
  have hr := notAbove_respected setup
  have hl := (hr.advance (hr.host depth) a.inv opcode a.machine).level
  rwa [Action.final_of_ok h] at hl

/-! The end that is computed, by the cases of `Ends`. -/

theorem ending_of_codeEnds (hc : a.opcode? = none) : a.ending setup = ⟨0, .ok () a.machine⟩ := by
  have hturns (budget : Nat) :
      Interpreter.turns setup (host setup (a.levelsLeft setup)) a.inv budget a.machine = [] := by
    cases budget with
    | zero => rfl
    | succ budget =>
      unfold opcode? at hc
      rw [Interpreter.turns, hc]
  rw [ending, Interpreter.runFor_of_ended setup _ _ hc, hturns]
  rfl

theorem ending_of_limit (hc : a.opcode? = some opcode) (hs : a.steps = setup.settings.maxSteps) :
    a.ending setup = ⟨0, .error (.stepLimitExceeded a.steps) a.machine⟩ := by
  unfold opcode? at hc
  have hleft : a.stepsLeft setup = 0 := by
    rw [stepsLeft, hs, Nat.sub_self]
  rw [ending, hleft, Interpreter.runFor, Interpreter.fetch_bind, hc, hs]
  rfl

theorem ending_of_turn (hc : a.opcode? = some opcode) (hs : a.steps < setup.settings.maxSteps) :
    a.ending setup =
      match Interpreter.advance setup (host setup (a.levelsLeft setup)) a.inv opcode a.machine with
      | .ok true m =>
        let e := ending setup ⟨a.inv, a.steps + 1, m⟩
        ⟨e.executed + 1, e.result⟩
      | .ok false m => ⟨1, .ok () m⟩
      | .error fault m => ⟨1, .error fault m⟩ := by
  unfold opcode? at hc
  obtain ⟨budget, hbudget⟩ : ∃ budget, a.stepsLeft setup = budget + 1 :=
    ⟨setup.settings.maxSteps - a.steps - 1, by unfold stepsLeft; omega⟩
  have hrest : setup.settings.maxSteps - (a.steps + 1) = budget := by
    unfold stepsLeft at hbudget
    omega
  rw [ending, hbudget, Interpreter.runFor_of_opcode setup _ _ hc, Interpreter.turns, hc]
  rcases ha : Interpreter.advance setup (host setup (a.levelsLeft setup)) a.inv opcode a.machine
    with ⟨_ | _, m⟩ | ⟨fault, m⟩
  · simp only [Action.bind_of_ok ha, ha]
    rfl
  · have hlevels : levelsLeft setup ⟨a.inv, a.steps + 1, m⟩ = a.levelsLeft setup := by
      rw [levelsLeft, levelsLeft, level, level_of_advance ha]
    simp only [Action.bind_of_ok ha, ha, if_true, List.length_cons, ending, hlevels, stepsLeft,
      hrest]
  · simp only [Action.bind_of_error ha, ha]
    rfl

/-- A frame within its budget comes to nothing but the end that is computed. -/
theorem Ends.eq_ending {e : Ending} (h : Ends setup a e) (hs : a.steps ≤ setup.settings.maxSteps) :
    e = a.ending setup := by
  have hbelow {a : Activation} {below : Activation → Ending}
      (ih : ∀ b, a.Enters setup b → b.steps ≤ setup.settings.maxSteps → below b = b.ending setup) :
      ∀ b, a.Enters setup b → below b = b.ending setup := by
    intro b hb
    refine ih b hb ?_
    cases hb
    exact Nat.zero_le _
  induction h with
  | codeEnds hc => exact (ending_of_codeEnds hc).symm
  | limit hc hlimit => exact (ending_of_limit hc (Nat.le_antisymm hs hlimit)).symm
  | goesOn hc hlt _ ht _ ihb ihe =>
    rw [turn_eq_advance hc (hbelow ihb)] at ht
    rw [ending_of_turn hc hlt, ht, ihe hlt]
  | halts hc hlt _ ht ihb =>
    rw [turn_eq_advance hc (hbelow ihb)] at ht
    rw [ending_of_turn hc hlt, ht]
  | faults hc hlt _ ht ihb =>
    rw [turn_eq_advance hc (hbelow ihb)] at ht
    rw [ending_of_turn hc hlt, ht]

end Activation

end SpeculativeEvm
