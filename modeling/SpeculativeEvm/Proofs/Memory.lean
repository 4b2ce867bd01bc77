import SpeculativeEvm.Memory

/-! What is read from memory after a write: the bytes written, cut or filled with zeros to the size
of the range, and outside the range what was there before. Memory that has grown reads the same. -/

namespace SpeculativeEvm

namespace Bytes

theorem at0_append_replicate (bytes : Bytes) (n i : Nat) :
    (bytes ++ Array.replicate n 0 : Bytes).at0 i = bytes.at0 i := by
  unfold at0
  rw [Array.getElem?_append]
  split
  · rfl
  · next h =>
    have hn : bytes[i]? = none := Array.getElem?_eq_none (by omega)
    rw [hn, Array.getElem?_replicate]
    split <;> rfl

end Bytes

namespace Memory

theorem size_resize (data : Bytes) (size : Nat) : (resize data size).size = size := by
  unfold resize
  split
  · simp; omega
  · simp; omega

theorem le_wordAligned {n : Nat} (h : n ≤ addressSpace - 32) : n ≤ wordAligned n := by
  unfold wordAligned
  unfold addressSpace UInt64.size at h ⊢
  omega

variable (m : Memory)

/-- Growing makes room and changes nothing that is read. -/
theorem grow_spec {stop : Nat} (hs : stop ≤ addressSpace - 32) (hl : stop ≤ m.limit) :
    stop ≤ (m.grow stop).data.size ∧ ∀ i, (m.grow stop).data.at0 i = m.data.at0 i := by
  unfold grow
  by_cases h : m.data.size < stop
  · have ha := le_wordAligned hs
    have hm : stop ≤ min (wordAligned stop) m.limit := by omega
    simp only [if_pos h]
    refine ⟨by rw [size_resize]; exact hm, fun i => ?_⟩
    rw [resize, if_neg (by omega), Bytes.at0_append_replicate]
  · rw [if_neg h]
    exact ⟨by omega, fun _ => rfl⟩

theorem size_blit (data : Bytes) (offset size : Nat) (value : Bytes) :
    (blit data offset size value).size = data.size := by
  unfold blit
  induction size with
  | zero => rfl
  | succ size ih => rw [Nat.fold_succ, Array.size_setIfInBounds, ih]

theorem at0_blit (data : Bytes) {offset size : Nat} (h : offset + size ≤ data.size) (value : Bytes)
    (i : Nat) : (blit data offset size value).at0 i =
      if offset ≤ i ∧ i < offset + size then value.at0 (i - offset) else data.at0 i := by
  induction size with
  | zero =>
    rw [if_neg (by omega)]
    rfl
  | succ size ih =>
    have hstep : blit data offset (size + 1) value =
        (blit data offset size value).setIfInBounds (offset + size) (value.at0 size) := by
      rw [blit, Nat.fold_succ, blit]
    rw [hstep, Bytes.at0, Array.getElem?_setIfInBounds, size_blit]
    by_cases hi : offset + size = i
    · rw [if_pos hi, if_pos (by omega), if_pos (by omega), ← hi, Nat.add_sub_cancel_left]
      rfl
    · rw [if_neg hi, ← Bytes.at0, ih (by omega)]
      by_cases hr : offset ≤ i ∧ i < offset + size
      · rw [if_pos hr, if_pos (by omega)]
      · rw [if_neg hr, if_neg (by omega)]

/-- The fault of a range, if any: none exactly if the range lies within the limit. -/
theorem refusal_eq_none_iff (limit offset size : Nat) :
    refusal limit offset size = none ↔ offset + size < addressSpace ∧ offset + size ≤ limit := by
  unfold refusal
  by_cases h : addressSpace ≤ offset + size
  · rw [if_pos h]
    simp only [reduceCtorEq, false_iff]
    omega
  · rw [if_neg h]
    by_cases hl : limit < offset + size
    · rw [if_pos hl]
      simp only [reduceCtorEq, false_iff]
      omega
    · rw [if_neg hl]
      simp only [true_iff]
      omega

inductive Worked {α : Type} (offset size : Nat) (m m' : Memory) :
    EStateM.Result Fault Memory α → Prop
  | empty {a : α} (hz : size = 0) : Worked offset size m m' (.ok a m)
  | refused {e : Fault} (hz : size ≠ 0) (hr : refusal m.limit offset size = some e) :
    Worked offset size m m' (.error e m)
  | done {a : α} (hz : size ≠ 0) (hr : refusal m.limit offset size = none) :
    Worked offset size m m' (.ok a m')

theorem worked_unless_refused {α : Type} (offset size : Nat) (a b : α) (m' : Memory) :
    Worked offset size m m'
      (if size = 0 then .ok a m
      else
        match refusal m.limit offset size with
        | some fault => .error fault m
        | none => .ok b m') := by
  by_cases hz : size = 0
  · rw [if_pos hz]
    exact .empty hz
  · rw [if_neg hz]
    cases hr : refusal m.limit offset size with
    | some fault => exact .refused hz hr
    | none => exact .done hz hr

theorem expand_worked (offset size : Nat) :
    Worked offset size m (m.grow (offset + size)) (expand offset size m) :=
  m.worked_unless_refused offset size () () _

theorem get_worked (offset size : Nat) : Worked offset size m m (get offset size m) :=
  m.worked_unless_refused offset size _ _ m

theorem set_worked (offset size : Nat) (value : Bytes) :
    Worked offset size m (m.write offset size value) (set offset size value m) :=
  m.worked_unless_refused offset size () () _

theorem copyFrom_worked (offset size : Nat) (source : Bytes) (start : Nat) :
    Worked offset size m (m.write offset size (source.window start size))
      (copyFrom offset size source start m) :=
  m.worked_unless_refused offset size () () _

/-- Writing to a range within the limit succeeds. -/
theorem set_ok {offset size : Nat} (h : size = 0 ∨ refusal m.limit offset size = none)
    (value : Bytes) : ∃ m', set offset size value m = .ok () m' := by
  unfold set
  by_cases hz : size = 0
  · rw [if_pos hz]
    exact ⟨m, rfl⟩
  · rw [if_neg hz, h.resolve_left hz]
    exact ⟨_, rfl⟩

theorem at0_set {offset size : Nat} {value : Bytes} {m' : Memory}
    (h : set offset size value m = .ok () m') (hs : offset + size ≤ addressSpace - 32) (i : Nat) :
    m'.data.at0 i =
      if offset ≤ i ∧ i < offset + size then value.at0 (i - offset) else m.data.at0 i := by
  have hw := m.set_worked offset size value
  rw [h] at hw
  cases hw with
  | empty hz => rw [if_neg (by omega)]
  | done hz hr =>
    obtain ⟨-, hl⟩ := (refusal_eq_none_iff _ _ _).1 hr
    obtain ⟨hg, hv⟩ := m.grow_spec hs hl
    rw [write, at0_blit _ hg, hv]

end Memory

end SpeculativeEvm
