import SpeculativeEvm.Proofs.Execute.Effect
import SpeculativeEvm.Proofs.Execute.Resolve
import SpeculativeEvm.Proofs.Nesting.Enter

/-! Relations between states of a run that whole runs respect. It is enough that a preorder holds of
each single change: those of the instructions, an abort, a created address, and a step down to a
nested frame and up again. The induction over instructions, budget and depth is done here, once. -/

namespace SpeculativeEvm

open Execute

variable {σ : Type}

def World.Related (R : Speculation → Speculation → Prop) (w w' : World σ) : Prop := R w.run w'.run

def Machine.Related (R : Speculation → Speculation → Prop) (m m' : Machine σ) : Prop :=
  R m.world.run m'.world.run

instance (R : Speculation → Speculation → Prop) [IsPreorder Speculation R] :
    IsPreorder (World σ) (World.Related R) where
  refl w := refl_of R w.run
  trans _ _ _ h h' := trans_of R h h'

instance (R : Speculation → Speculation → Prop) [IsPreorder Speculation R] :
    IsPreorder (Machine σ) (Machine.Related R) where
  refl m := refl_of R m.world.run
  trans _ _ _ h h' := trans_of R h h'

structure Respected (setup : Setup) (R : Speculation → Speculation → Prop) : Prop
    extends IsPreorder Speculation R where
  effect {inv : Invocation} {s t : Speculation} {i : Instruction} : Effect setup inv s i t → R s t
  abort (s : Speculation) : R s s.abort
  setCreated (s : Speculation) (a : Address) : R s (s.setCreated (s.level + 1) a)
  nested {s t : Speculation} : R s.descend t → R s t.ascend

namespace Respected

variable {setup : Setup} {R : Speculation → Speculation → Prop} (h : Respected setup R)

include h

theorem parts : Machine.Parts (Machine.Related R (σ := σ)) := by
  have := h.toIsPreorder
  refine .of_localChange fun {m m'} hl => ?_
  rw [Machine.Related, hl.world]
  exact refl_of R _

theorem note (event : Machine σ → Event) :
    (Machine.note event).Keeps (Machine.Related R) := by
  have := h.toIsPreorder
  intro m
  rw [Machine.final_note]
  exact refl_of R m.world.run

theorem start (inv : Invocation) (i : Instruction) :
    (start setup inv i : Action (Machine σ) Progress).Keeps (Machine.Related R) :=
  fun m => h.effect (start_effect setup inv m i)

theorem resolve (resolution : Resolution) :
    (resolve resolution : Action (Machine σ) Control).Keeps (Machine.Related R) :=
  resolve_keeps h.parts.data h.note (fun m => h.abort m.world.run) resolution

theorem moveOn (inv : Invocation) (opcode : UInt8) (control : Control) :
    (Interpreter.moveOn inv opcode control : Action (Machine σ) Bool).Keeps (Machine.Related R) :=
  Interpreter.moveOn_keeps h.parts h.note inv opcode control

section Host

variable {host : Host σ} (hh : ∀ inv request, (host inv request).Keeps (World.Related R))

include hh

theorem execute (inv : Invocation) (i : Instruction) :
    (execute setup host inv i).Keeps (Machine.Related R) := by
  have := h.toIsPreorder
  refine .bind (h.start inv i) fun progress => ?_
  cases progress with
  | done control => exact .pure _
  | ask request resolution =>
    refine .bind (fun m => ?_) fun _ => h.resolve resolution
    rw [Machine.final_onWorld]
    exact hh inv request m.world

theorem advance (inv : Invocation) (opcode : UInt8) :
    (Interpreter.advance setup host inv opcode).Keeps (Machine.Related R) := by
  have := h.toIsPreorder
  rw [Interpreter.advance_eq]
  exact .bind (h.note _) fun _ => .bind (h.execute hh inv _) (h.moveOn inv opcode)

theorem runFor (inv : Invocation) (budget : Nat) :
    (Interpreter.runFor setup host inv budget).Keeps (Machine.Related R) := by
  have := h.toIsPreorder
  have hfetch : (Interpreter.fetch inv : Action (Machine σ) _).Keeps (Machine.Related R) :=
    fun m => refl_of R m.world.run
  induction budget with
  | zero =>
    refine .bind hfetch fun opcode => ?_
    split
    · exact .throw _
    · exact .pure _
  | succ budget ih =>
    refine .bind hfetch fun opcode => ?_
    cases opcode with
    | none => exact .pure _
    | some opcode =>
      refine .bind (h.advance hh inv opcode) fun goesOn => ?_
      split
      · exact ih
      · exact .pure _

theorem run (inv : Invocation) :
    (Interpreter.run setup host inv).Keeps (Machine.Related R) := by
  have := h.toIsPreorder
  have hpc : (Machine.setPc 0 : Action (Machine σ) Unit).Keeps (Machine.Related R) :=
    fun m => refl_of R m.world.run
  have hout : (Machine.takeOutput : Action (Machine σ) Bytes).Keeps (Machine.Related R) :=
    fun m => refl_of R m.world.run
  exact .bind hpc fun _ => .bind (h.runFor hh inv _) fun _ => hout

end Host

open Nesting

theorem child (inv : Invocation) (request : Request) :
    (child setup inv request).Keeps (World.Related R) := by
  have := h.toIsPreorder
  intro w
  obtain ⟨next, nonces, hc⟩ := child_ok setup inv request w
  rw [Action.final_of_ok hc]
  exact refl_of R w.run

theorem refuse : refuse.Keeps (World.Related R) := by
  have := h.toIsPreorder
  intro w
  rw [Action.final_of_ok (refuse_apply w)]
  exact refl_of R w.run

theorem serve {descend : Invocation → Action (World Nonces) Bool}
    (hd : ∀ inv, (descend inv).Keeps (World.Related R)) (inv : Invocation) (request : Request) :
    (serve setup descend inv request).Keeps (World.Related R) := by
  have := h.toIsPreorder
  exact serve_keeps (h.child inv request) hd fun w a => h.setCreated w.run a

theorem enter {host : Host Nonces} (hh : ∀ inv request, (host inv request).Keeps (World.Related R))
    (inv : Invocation) : (enter setup host inv).Keeps (World.Related R) := by
  intro w
  rw [World.Related, run_final_enter]
  exact h.nested (h.run hh inv (entry setup w))

theorem host (depth : Nat) (inv : Invocation) (request : Request) :
    (host setup depth inv request).Keeps (World.Related R) := by
  have := h.toIsPreorder
  induction depth generalizing inv request with
  | zero => exact h.serve (fun _ => h.refuse) inv request
  | succ depth ih => exact h.serve (h.enter ih) inv request

/-- The states of the run before and after a frame with its nested frames are related. -/
theorem nestingExecute (inv : Invocation) :
    (Nesting.execute setup inv).Keeps (Machine.Related R) := by
  have := h.toIsPreorder
  exact .bind (fun m => refl_of R m.world.run) fun _ => h.run (h.host _) inv

end Respected

end SpeculativeEvm
