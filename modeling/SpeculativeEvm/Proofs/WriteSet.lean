import SpeculativeEvm.Proofs.Nesting.Point

/-! The accounts a run counts as written are those its overlay holds an entry of. Each change to the
overlay is recorded before the next instruction, and nothing else records a write. -/

namespace SpeculativeEvm

namespace AccessKind

theorem max_read_eq_write (k : AccessKind) : k.max .read = .write ↔ k = .write := by
  cases k <;> decide

theorem max_write (k : AccessKind) : k.max .write = .write := by
  cases k <;> rfl

end AccessKind

namespace AccessSet

variable (s : AccessSet) (a b : Address)

theorem kindOf_recordRead_eq_write :
    (s.recordRead a).kindOf b = some .write ↔ s.kindOf b = some .write := by
  rw [recordRead, kindOf_record]
  by_cases h : a = b
  · rw [if_pos h, ← h]
    cases s.kindOf a with
    | none => simp
    | some k => simp [AccessKind.max_read_eq_write]
  · rw [if_neg h]

theorem kindOf_recordWrite_eq_write :
    (s.recordWrite a).kindOf b = some .write ↔ a = b ∨ s.kindOf b = some .write := by
  rw [recordWrite, kindOf_record]
  by_cases h : a = b
  · rw [if_pos h, ← h]
    cases s.kindOf a with
    | none => simp
    | some k => simp [AccessKind.max_write]
  · simp [h]

end AccessSet

namespace Overlay

/-- The overlay has a balance or a storage entry of the account. -/
def Holds (o : Overlay) (a : Address) : Prop :=
  (o.balance? a).isSome ∨ ∃ slot, (o.storage? a slot).isSome

theorem not_holds_empty (a : Address) : ¬ empty.Holds a := by
  simp [Holds, empty, balance?, storage?]

variable (o : Overlay) (a b : Address)

theorem holds_setBalance (w : Word) : (o.setBalance a w).Holds b ↔ a = b ∨ o.Holds b := by
  unfold Holds
  by_cases h : a = b <;> simp [h]

theorem holds_setStorage (slot w : Word) :
    (o.setStorage a slot w).Holds b ↔ a = b ∨ o.Holds b := by
  unfold Holds
  by_cases h : a = b
  · simp only [h, true_or, iff_true]
    exact .inr ⟨slot, by simp⟩
  · simp [h]

end Overlay

namespace Speculation

/-- The accounts counted as written are those the overlay holds an entry of. -/
def WritesExact (s : Speculation) : Prop :=
  ∀ a, s.accesses.kindOf a = some .write ↔ s.overlay.Holds a

variable {s : Speculation}

theorem writesExact_of_empty (ho : s.overlay = .empty) (ha : s.accesses = .empty) :
    s.WritesExact := by
  intro a
  simp [ho, ha, Overlay.not_holds_empty]

theorem WritesExact.recordRead (h : s.WritesExact) (a : Address) :
    (s.recordRead a).WritesExact :=
  fun b => (AccessSet.kindOf_recordRead_eq_write s.accesses a b).trans (h b)

theorem WritesExact.store (h : s.WritesExact) (a : Address) (slot value : Word) :
    (s.store a slot value).WritesExact := by
  intro b
  refine (AccessSet.kindOf_recordWrite_eq_write s.accesses a b).trans ?_
  rw [h b]
  exact (Overlay.holds_setStorage s.overlay a b slot value).symm

theorem WritesExact.bequeath (h : s.WritesExact) (c : Committed) (a beneficiary : Address) :
    (s.bequeath c a beneficiary).WritesExact := by
  intro b
  refine (AccessSet.kindOf_recordWrite_eq_write (s.accesses.recordRead a) beneficiary b).trans ?_
  rw [AccessSet.kindOf_recordRead_eq_write, h b]
  exact (Overlay.holds_setBalance s.overlay beneficiary b _).symm

theorem WritesExact.handBack (h : s.WritesExact) (output : Bytes) :
    (s.handBack output).WritesExact := by
  obtain ⟨returned, he⟩ := s.handBack_eq output
  rw [he]
  exact h

theorem writesExact_respected (setup : Setup) :
    Respected setup fun s t => s.WritesExact → t.WritesExact where
  refl _ h := h
  trans _ _ _ h h' := h' ∘ h
  effect he h := by
    cases he with
    | none => exact h
    | account query a => exact h.recordRead a
    | extCodeCopy a => exact h.recordRead a
    | selfBalance => exact h.recordRead _
    | sload => exact h.recordRead _
    | sstore slot value => exact h.store _ slot value
    | selfDestruct beneficiary => exact h.bequeath _ _ beneficiary
    | invalid => exact h
    | handBack _ output => exact h.handBack output
    | clearBelow => exact h
  abort _ h := h
  setCreated _ _ h := h
  nested h := h

end Speculation

open Nesting Point

/-- From a run with nothing written and nothing recorded, at every point of the run and at the end
of every frame of it. -/
theorem writesExact_of_reaches (setup : Setup) (inv : Invocation) (m : Machine Nonces)
    (ho : m.world.run.overlay = .empty) (ha : m.world.run.accesses = .empty) :
    (∀ p, Reaches setup (start setup inv m) p →
      p.run.WritesExact ∧ (p.left setup).world.run.WritesExact) ∧
      ((Nesting.execute setup inv).final m).world.run.WritesExact := by
  have h0 : (start setup inv m).run.WritesExact := Speculation.writesExact_of_empty ho ha
  have h (p : Point) (hp : Reaches setup (start setup inv m) p) :=
    hp.invariant (Speculation.writesExact_respected setup) (fun _ h => h) h0
  refine ⟨h, ?_⟩
  rw [run_final_execute]
  exact (h _ .refl).2

def faultingStore : Setup :=
  ⟨{}, {}, (Ledger.empty.setCode ⟨1⟩ #[0x60, 5, 0x60, 2, 0x55, 0x0c]).committed⟩

def callOne : Invocation :=
  ⟨⟨0⟩, .zero, 0, .ofBytes #[0x5f, 0x5f, 0x5f, 0x5f, 0x5f, 0x60, 1, 0x5f, 0xf1], #[]⟩

/-- What a nested frame wrote before it faulted stays written, and counts. -/
theorem writesExact_of_faultingCall :
    let m := (Nesting.execute faultingStore callOne).final ⟨.fresh 64, freshWorld {}⟩
    m.world.run.overlay.Holds ⟨1⟩ :=
  ((writesExact_of_reaches faultingStore callOne ⟨.fresh 64, freshWorld {}⟩ rfl rfl).2 ⟨1⟩).1
    (by decide +kernel)

end SpeculativeEvm
