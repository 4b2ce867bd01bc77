import SpeculativeEvm.Proofs.Execute.StackUse
import SpeculativeEvm.Proofs.Fetch
import SpeculativeEvm.Proofs.Nesting.Bounds

/-! The stack discipline of the instruction set: one table says how many words each instruction
needs and how many it leaves in their place, and no run ever has more words on a stack than fit. -/

namespace SpeculativeEvm

open Execute

/-- The faults that a host of nested frames raises of its own. -/
def Fault.ofHost : Fault → Bool
  | orchestrator _ | fatal _ => true
  | _ => false

theorem Fault.not_ofStack_of_ofHost {e : Fault} (h : e.ofHost = true) : e.ofStack = false := by
  cases e with
  | orchestrator | fatal => rfl
  | _ => cases h

section Table

variable {σ : Type}

/-- What the table of the instructions says of one that is executed on `m`. -/
structure FollowsTable (i : Instruction) (m : Machine σ)
    (r : EStateM.Result Fault (Machine σ) Control) : Prop where
  underflow : (∃ t, r = .error .stackUnderflow t) ↔ m.frame.stack.depth < i.takes
  overflow : ∀ t, r = .error .stackOverflow t →
    m.frame.stack.depth = maxStackDepth ∧ i.gives false = i.takes + 1
  depth : ∀ control t, r = .ok control t →
    t.frame.stack.depth + i.takes =
      m.frame.stack.depth + i.gives t.world.run.outcome.aborted ∧
    t.frame.stack.depth ≤ maxStackDepth
  below : ∀ control t, r = .ok control t → ∃ top,
    top.length = i.gives t.world.run.outcome.aborted ∧
    t.frame.stack.words = top ++ m.frame.stack.words.drop i.takes

theorem Machine.Used.followsTable {i : Instruction} {m : Machine σ} {x : Action (Machine σ) Control}
    (h : Used i.takes (i.gives (x.final m).world.run.outcome.aborted) m.frame.stack.words (x m)) :
    FollowsTable i m (x m) where
  underflow := h.underflow_iff
  overflow t ht := by
    rw [ht] at h
    obtain ⟨hlen, hgive⟩ := h.of_overflow
    exact ⟨hlen, i.gives_eq_of_grows hgive false⟩
  depth control t ht := by
    rw [Action.final_of_ok ht, ht] at h
    obtain ⟨htake, hle, top, htop, hwords⟩ := h.of_ok
    have hlen := congrArg List.length hwords
    rw [List.length_append, List.length_drop, htop] at hlen
    refine ⟨?_, hle⟩
    rw [Stack.depth, hlen, Nat.add_assoc, Nat.sub_add_cancel htake, Nat.add_comm]
    rfl
  below control t ht := by
    rw [Action.final_of_ok ht, ht] at h
    obtain ⟨-, -, htop⟩ := h.of_ok
    exact htop

theorem stack_le_of_mem_turns {setup : Setup} {host : Host σ} {inv : Invocation} {budget : Nat}
    {m t : Machine σ} (hm : m.frame.stack.depth ≤ maxStackDepth)
    (ht : t ∈ Interpreter.turns setup host inv budget m) :
    t.frame.stack.depth ≤ maxStackDepth := by
  induction budget generalizing m with
  | zero => cases ht
  | succ budget ih =>
    unfold Interpreter.turns at ht
    cases hc : inv.code.bytes[m.frame.pc]? with
    | none =>
      rw [hc] at ht
      cases ht
    | some opcode =>
      have hnext := Machine.StackBounded.advance setup host inv opcode m hm
      simp only [hc, List.mem_cons] at ht
      rcases ht with rfl | ht
      · exact hm
      · rcases ha : Interpreter.advance setup host inv opcode m with ⟨goesOn, m'⟩ | ⟨e, m'⟩
        · rw [Action.final_of_ok ha] at hnext
          cases goesOn with
          | true =>
            rw [ha] at ht
            exact ih hnext ht
          | false =>
            rw [ha] at ht
            cases ht
        · rw [ha] at ht
          cases ht

end Table

/-- Every instruction follows the table, whatever host answers its requests, as long as the host
raises only faults of its own. So no frame has more words on its stack than fit, at any of its
instructions or in the end, and neither has any frame nested in it. -/
theorem stack_follows_table {σ : Type} (setup : Setup) (host : Host σ) (inv : Invocation)
    (hh : ∀ inv request, (host inv request).Raises fun e => e.ofHost = true) :
    (∀ (opcode : UInt8) (m : Machine σ), m.frame.stack.depth ≤ maxStackDepth →
      FollowsTable (Instruction.decode opcode) m
        (SpeculativeEvm.execute setup host inv (Instruction.decode opcode) m)) ∧
    (∀ budget (m : Machine σ), m.frame.stack.depth ≤ maxStackDepth →
      (∀ t ∈ Interpreter.turns setup host inv budget m, t.frame.stack.depth ≤ maxStackDepth) ∧
      ((Interpreter.runFor setup host inv budget).final m).frame.stack.depth ≤ maxStackDepth) ∧
    ∀ (m : Machine Nesting.Nonces) (p : Point), m.frame.stack.depth ≤ maxStackDepth →
      Point.Reaches setup (Point.start setup inv m) p →
      p.machine.frame.stack.depth ≤ maxStackDepth ∧
      (p.left setup).frame.stack.depth ≤ maxStackDepth := by
  refine ⟨fun opcode m hm => ?_, fun budget m hm => ⟨fun t ht => ?_, ?_⟩, fun m p hm hr => ?_⟩
  · have hraises inv request : (host inv request).Raises fun e => e.ofStack = false :=
      fun w e w' he => Fault.not_ofStack_of_ofHost (hh inv request w e w' he)
    exact (execute_used setup inv hraises (Instruction.placed_decode opcode) hm).followsTable
  · exact stack_le_of_mem_turns hm ht
  · exact Machine.StackBounded.runFor setup host inv budget m hm
  · have hp := hr.stack_le hm
    exact ⟨hp, Machine.StackBounded.runFor setup _ p.inv p.budget _ hp⟩

/-- A `SWAP2` needs three words, and of two it touches none. -/
theorem swap2_underflows :
    ∃ t, SpeculativeEvm.execute bareSetup (fun _ _ => throw (.orchestrator "unanswered"))
      jumpingInside (Instruction.decode 0x91)
      ({ freshUnit with frame := { freshUnit.frame with stack := ⟨[1, 2]⟩ } } : Machine Unit) =
        .error .stackUnderflow t :=
  ((stack_follows_table bareSetup (fun _ _ => throw (.orchestrator "unanswered")) jumpingInside
    fun _ _ => .throw rfl).1 0x91 _ (by decide)).underflow.2 (by decide)

end SpeculativeEvm
