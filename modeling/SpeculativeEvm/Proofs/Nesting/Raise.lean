import SpeculativeEvm.Proofs.Execute.Raise
import SpeculativeEvm.Proofs.Nesting.Record

/-! Which faults come out of frames that run others. The host passes on nothing but the fatal faults
of nested frames, so at any depth there are only the faults that instructions raise by themselves,
and the one of a frame whose budget is used up. -/

namespace SpeculativeEvm

open Nesting

variable {setup : Setup} {P : Fault → Prop}

/-- `P` holds of all that a frame raises by itself: the faults of its instructions' operands, of
quantities that are no words, of undefined bytes and of its step budget. -/
structure Fault.OfFrames (setup : Setup) (P : Fault → Prop) : Prop extends Fault.OfOperands P where
  quantity {inv : Invocation} {frame : Frame} {q : Quantity} {e : Fault} :
    Execute.quantityOf setup inv frame q = .error e → P e
  opcode (byte : UInt8) : P (.invalidOpcode byte)
  steps : P (.stepLimitExceeded setup.settings.maxSteps)

/-- The reference host passes on the fatal faults of nested frames and raises nothing else. -/
theorem Nesting.host_raises (setup : Setup) (depth : Nat) (inv : Invocation) (request : Request) :
    (host setup depth inv request).Raises fun e => e.isFatal = true := by
  intro w e w' he
  obtain ⟨next, nonces, hc⟩ := child_ok setup inv request w
  cases depth with
  | zero =>
    rw [host, serve_apply hc, refuse_apply] at he
    cases he
  | succ depth =>
    have hp : Point.Passed setup _ (host setup (depth + 1) inv request w) := Point.host_passed hc
    rw [he] at hp
    cases hp with
    | fatal _ hfatal _ => exact hfatal

/-- The faults of a frame's run, given those of the host below it. -/
theorem Interpreter.runFor_raises_of_host (hP : Fault.OfFrames setup P) {depth : Nat}
    (hh : ∀ inv request, (host setup depth inv request).Raises P) (inv : Invocation)
    (budget : Nat) : (runFor setup (host setup depth) inv budget).Raises P := by
  refine runFor_raises (fun opcode => advance_raises ?_ (hh inv) ?_) hP.steps budget
  · exact Execute.start_raises hP.toOfOperands setup inv (fun _ _ _ _ => hP.quantity)
      fun byte _ => hP.opcode byte
  · exact Execute.resolve_raises hP.toOfOperands

/-- No fault is made up on its way from a nested frame to the frames around it. -/
theorem Nesting.host_raises_of_frames (hP : Fault.OfFrames setup P) (depth : Nat)
    (inv : Invocation) (request : Request) : (host setup depth inv request).Raises P := by
  induction depth generalizing inv request with
  | zero =>
    intro w e w' he
    obtain ⟨next, nonces, hc⟩ := child_ok setup inv request w
    rw [host, serve_apply hc, refuse_apply] at he
    cases he
  | succ depth ih =>
    intro w e w' he
    obtain ⟨next, nonces, hc⟩ := child_ok setup inv request w
    have hp : Point.Passed setup _ (host setup (depth + 1) inv request w) := Point.host_passed hc
    rw [he] at hp
    cases hp with
    | fatal hr _ _ => exact Interpreter.runFor_raises_of_host hP ih next _ _ e _ hr

theorem Interpreter.runFor_raises_of_frames (hP : Fault.OfFrames setup P) (depth : Nat)
    (inv : Invocation) (budget : Nat) : (runFor setup (host setup depth) inv budget).Raises P :=
  runFor_raises_of_host hP (host_raises_of_frames hP depth) inv budget

end SpeculativeEvm
