import Mathlib.Logic.Relation
import SpeculativeEvm.Proofs.Nesting.Respected

/-! The states a run goes through. A point is a frame at work, at any depth: it steps on when its
next instruction lets it go on, and it steps down into the frame that a call or creation asks for.
What every change respects holds at every point of a run, and when the frame at work there ends. -/

namespace SpeculativeEvm

open Nesting

/-- A frame about to execute an instruction, of which it may execute `budget` more, while `depth`
more levels may run below it. -/
structure Point where
  depth : Nat
  budget : Nat
  inv : Invocation
  machine : Machine Nonces

namespace Point

/-- The point at which `Nesting.execute` starts. -/
def start (setup : Setup) (inv : Invocation) (m : Machine Nonces) : Point where
  depth := setup.settings.maxCallDepth - m.world.run.level
  budget := setup.settings.maxSteps
  inv := inv
  machine := ⟨{ m.frame with pc := 0 }, m.world⟩

def run (p : Point) : Speculation := p.machine.world.run

def noted (p : Point) (opcode : UInt8) : Machine Nonces :=
  (Machine.note fun m => .step m.frame.pc opcode m.frame.stack.depth).final p.machine

/-- The machine that the frame leaves when its run ends, whether or not it faults. -/
def left (setup : Setup) (p : Point) : Machine Nonces :=
  (Interpreter.runFor setup (host setup p.depth) p.inv p.budget).final p.machine

inductive Step (setup : Setup) : Point → Point → Prop
  | next {p : Point} {opcode : UInt8} {budget : Nat} {m : Machine Nonces}
    (hb : p.budget = budget + 1) (hc : p.inv.code.bytes[p.machine.frame.pc]? = some opcode)
    (h : Interpreter.advance setup (host setup p.depth) p.inv opcode p.machine = .ok true m) :
    Step setup p ⟨p.depth, budget, p.inv, m⟩
  | enter {p : Point} {opcode : UInt8} {budget depth : Nat} {request : Request}
    {resolution : Resolution} {m : Machine Nonces} {next : Invocation} {w : World Nonces}
    (hb : p.budget = budget + 1) (hd : p.depth = depth + 1)
    (hc : p.inv.code.bytes[p.machine.frame.pc]? = some opcode)
    (h : Execute.start setup p.inv (Instruction.decode opcode) (p.noted opcode) =
      .ok (.ask request resolution) m)
    (hn : child setup p.inv request m.world = .ok next w) :
    Step setup p ⟨depth, setup.settings.maxSteps, next, entry setup w⟩

/-- The later point is one of the run from the earlier one. -/
def Reaches (setup : Setup) : Point → Point → Prop := Relation.ReflTransGen (Step setup)

variable {setup : Setup} {p q : Point}

theorem run_final_execute (inv : Invocation) (m : Machine Nonces) :
    ((Nesting.execute setup inv).final m).world = ((start setup inv m).left setup).world := by
  have hleft : (start setup inv m).left setup = (Interpreter.runFor setup
      (host setup (setup.settings.maxCallDepth - m.world.run.level)) inv
      setup.settings.maxSteps).final ⟨{ m.frame with pc := 0 }, m.world⟩ := rfl
  rw [hleft, Nesting.execute, Action.final, Machine.readRun_bind, Interpreter.run_apply,
    Action.final]
  cases Interpreter.runFor _ _ _ _ _ <;> rfl

section Invariant

variable {P : Speculation → Prop} (h : Respected setup fun s t => P s → P t)
  (hd : ∀ s, P s → P s.descend)

include h hd

theorem Step.invariant (hs : Step setup p q) (hp : P p.run) : P q.run := by
  cases hs with
  | @next opcode _ m _ _ ha =>
    have hm := h.advance (h.host p.depth) p.inv opcode _ hp
    rwa [Action.final_of_ok ha] at hm
  | @enter opcode _ _ request _ m _ w _ _ _ ha hn =>
    have hm := h.start p.inv (Instruction.decode opcode) (p.noted opcode)
      (h.note (fun m => .step m.frame.pc opcode m.frame.stack.depth) p.machine hp)
    rw [Action.final_of_ok ha] at hm
    have hw := h.child p.inv request _ hm
    rw [Action.final_of_ok hn] at hw
    exact hd _ hw

/-- A property of the run's state that every change and every step down keeps holds throughout. -/
theorem Reaches.invariant (hr : Reaches setup p q) (hp : P p.run) :
    P q.run ∧ P (q.left setup).world.run := by
  have hq : P q.run := by
    induction hr with
    | refl => exact hp
    | tail _ hs ih => exact hs.invariant h hd ih
  exact ⟨hq, h.runFor (h.host _) _ _ _ hq⟩

end Invariant

end Point

end SpeculativeEvm
