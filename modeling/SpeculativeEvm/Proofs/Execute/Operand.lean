import SpeculativeEvm.Execute

/-! Instructions that replace their operands by a word. Where the operands are on the stack, such an
instruction succeeds whatever lies below them and whoever the host is, and it changes nothing but
them. -/

namespace SpeculativeEvm

def Machine.withWords {σ : Type} (m : Machine σ) (words : List Word) : Machine σ :=
  ⟨{ m.frame with stack := ⟨words⟩ }, m.world⟩

/-- An instruction that the host has no part in is executed by itself. -/
theorem execute_of_alone {σ : Type} {setup : Setup} {inv : Invocation} {i : Instruction}
    {act : Action (Machine σ) Control} (h : Execute.start setup inv i = Execute.alone act)
    (host : Host σ) (m : Machine σ) : execute setup host inv i m = act m := by
  rw [execute, h, Execute.alone, Action.bind_apply, Action.bind_apply]
  cases act m <;> rfl

namespace Instruction

/-- The instruction replaces the operands by the word and does nothing else. -/
def Computes (i : Instruction) (setup : Setup) (inv : Invocation) (operands : List Word)
    (w : Word) : Prop :=
  ∀ (σ : Type) (host : Host σ) (m : Machine σ) (below : List Word),
    execute setup host inv i (m.withWords (operands ++ below)) =
      .ok .next (m.withWords (w :: below))

variable (setup : Setup) (inv : Invocation)

theorem binary_computes (op : BinaryOp) (x y : Word) :
    (binary op).Computes setup inv [x, y] (op.apply x y) :=
  fun _ _ _ _ => rfl

theorem ternary_computes (op : TernaryOp) (x y n : Word) :
    (ternary op).Computes setup inv [x, y, n] (op.apply x y n) :=
  fun _ _ _ _ => rfl

end Instruction

end SpeculativeEvm
