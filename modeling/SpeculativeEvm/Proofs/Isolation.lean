import SpeculativeEvm.Access.Conflict
import SpeculativeEvm.Proofs.Commit
import SpeculativeEvm.Proofs.Dependence
import SpeculativeEvm.Proofs.WriteSet

/-! Runs without a conflict do not see each other. What a run writes is in its overlay, what it
depends on is in its record, and two records without a conflict keep the one from the other. -/

namespace SpeculativeEvm

namespace AccessSet

variable (s t : AccessSet)

theorem mem_withKind {kind : AccessKind} {a : Address} :
    a ∈ s.withKind kind ↔ s.kindOf a = some kind := by
  unfold withKind kindOf
  rw [List.mem_map]
  constructor
  · rintro ⟨⟨b, k⟩, hm, rfl⟩
    obtain ⟨hm, hk⟩ := List.mem_filter.1 hm
    rw [Std.ExtTreeMap.mem_toList_iff_getElem?_eq_some.1 hm]
    exact congrArg some (of_decide_eq_true hk)
  · intro h
    refine ⟨⟨a, kind⟩, List.mem_filter.2 ⟨?_, decide_eq_true rfl⟩, rfl⟩
    exact Std.ExtTreeMap.mem_toList_iff_getElem?_eq_some.2 h

theorem sharedAs_eq_nil_iff (own foreign : AccessKind) :
    s.sharedAs t own foreign = [] ↔
      ∀ a, s.kindOf a = some own → t.kindOf a ≠ some foreign := by
  unfold sharedAs
  simp only [List.filter_eq_nil_iff, mem_withKind, decide_eq_true_eq, ne_eq]

/-- No conflict is reported exactly if neither set writes what the other one touches. -/
theorem any_conflictsWith_eq_false_iff :
    (s.conflictsWith t).any = false ↔
      ∀ a, (s.kindOf a = some .write → ¬ t.Touches a) ∧
        (t.kindOf a = some .write → ¬ s.Touches a) := by
  have hany : (s.conflictsWith t).any = false ↔ s.sharedAs t .read .write = [] ∧
      s.sharedAs t .write .write = [] ∧ s.sharedAs t .write .read = [] := by
    simp [Conflicts.any, conflictsWith, and_assoc]
  rw [hany]
  simp only [sharedAs_eq_nil_iff, ← forall_and]
  refine forall_congr' fun a => ?_
  unfold Touches
  rcases s.kindOf a with - | - | - <;> rcases t.kindOf a with - | - | - <;> simp

end AccessSet

namespace Overlay

variable {o : Overlay} {a : Address}

theorem balance?_of_not_holds (h : ¬ o.Holds a) : o.balance? a = none :=
  Option.not_isSome_iff_eq_none.1 fun hs => h (.inl hs)

theorem storage?_of_not_holds (h : ¬ o.Holds a) (slot : Word) : o.storage? a slot = none :=
  Option.not_isSome_iff_eq_none.1 fun hs => h (.inr ⟨slot, hs⟩)

end Overlay

/-- Of two values that may hide a third one, at most one present, the order does not matter. -/
theorem getD_comm {α : Type} {x y : Option α} (h : x = none ∨ y = none) (z : α) :
    y.getD (x.getD z) = x.getD (y.getD z) := by
  rcases h with rfl | rfl
  · rfl
  · rfl

namespace Committed

variable (c : Committed) {o o' : Overlay}

theorem agreeOn_under {s : AccessSet} (h : ∀ a, s.Touches a → ¬ o.Holds a) :
    c.AgreeOn (c.under o) s where
  code _ := rfl
  nonce _ := rfl
  balance {a} ha := by
    show (o.balance? a).getD (c.balance a) = c.balance a
    rw [Overlay.balance?_of_not_holds (h a ha), Option.getD_none]
  storage {a} ha slot := by
    show (o.storage? a slot).getD (c.storage a slot) = c.storage a slot
    rw [Overlay.storage?_of_not_holds (h a ha), Option.getD_none]

theorem under_comm (h : ∀ a, o.Holds a → ¬ o'.Holds a) :
    (c.under o).under o' = (c.under o').under o := by
  have hor (a : Address) : ¬ o.Holds a ∨ ¬ o'.Holds a := by
    by_cases ha : o.Holds a
    · exact .inr (h a ha)
    · exact .inl ha
  refine Committed.ext ?_ rfl rfl ?_
  · funext a
    exact getD_comm ((hor a).imp Overlay.balance?_of_not_holds Overlay.balance?_of_not_holds) _
  · funext a slot
    exact getD_comm ((hor a).imp (Overlay.storage?_of_not_holds · slot)
      (Overlay.storage?_of_not_holds · slot)) _

end Committed

open Nesting

structure Task where
  settings : Settings
  env : Environment
  inv : Invocation
  frame : Frame
  journal : Journal

namespace Task

variable (t : Task) (l : Ledger)

def setup : Setup := ⟨t.settings, t.env, l.committed⟩

def start : Machine Nonces := ⟨t.frame, freshWorld t.journal⟩

def result : EStateM.Result Fault (Machine Nonces) Bytes :=
  Nesting.execute (t.setup l) t.inv t.start

def left : Speculation :=
  ((Nesting.execute (t.setup l) t.inv).final t.start).world.run

theorem left_writesExact : (t.left l).WritesExact :=
  (Speculation.writesExact_respected (t.setup l)).nestingExecute t.inv t.start
    (Speculation.writesExact_of_empty rfl rfl)

/-- A task does the same after another one's overlay is committed, if that holds no account which
the task touches. -/
theorem result_commit {o : Overlay} (h : ∀ a, (t.left l).accesses.Touches a → ¬ o.Holds a) :
    t.result (l.commit o) = t.result l := by
  have ha := (Alike.nestingExecute (t.setup l) (l.committed.under o) t.inv).eq
    (l.committed.agreeOn_under h)
  rw [result, setup, Ledger.committed_commit]
  exact ha

end Task

/-- Two runs whose records have no conflict: either one does the same before and after the other
one's overlay is committed, and both overlays may be committed in either order. -/
theorem isolated_of_noConflict (l : Ledger) (t u : Task)
    (h : ((t.left l).accesses.conflictsWith (u.left l).accesses).any = false) :
    u.result (l.commit (t.left l).overlay) = u.result l ∧
      t.result (l.commit (u.left l).overlay) = t.result l ∧
      ((l.commit (t.left l).overlay).commit (u.left l).overlay).committed =
        ((l.commit (u.left l).overlay).commit (t.left l).overlay).committed := by
  have hc := (AccessSet.any_conflictsWith_eq_false_iff _ _).1 h
  have ht := t.left_writesExact l
  have hu := u.left_writesExact l
  refine ⟨u.result_commit l fun a ha ho => ?_, t.result_commit l fun a ha ho => ?_, ?_⟩
  · exact (hc a).1 ((ht a).2 ho) ha
  · exact (hc a).2 ((hu a).2 ho) ha
  · simp only [Ledger.committed_commit]
    refine l.committed.under_comm fun a hto huo => ?_
    have htouch : (u.left l).accesses.Touches a := by
      rw [AccessSet.Touches, (hu a).2 huo]
      rfl
    exact (hc a).1 ((ht a).2 hto) htouch

def Task.store (a : Address) : Task :=
  ⟨{}, {}, ⟨a, .zero, 0, .ofBytes #[0x60, 5, 0x60, 1, 0x55], #[]⟩, .fresh 64, {}⟩

/-- Stores under different accounts are no conflict. -/
theorem isolated_stores :
    (Task.store ⟨2⟩).result (Ledger.empty.commit ((Task.store ⟨1⟩).left .empty).overlay) =
      (Task.store ⟨2⟩).result .empty :=
  (isolated_of_noConflict .empty (Task.store ⟨1⟩) (Task.store ⟨2⟩) (by decide)).1

end SpeculativeEvm
