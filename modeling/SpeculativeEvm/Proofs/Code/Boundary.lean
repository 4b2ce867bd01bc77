import Mathlib.Data.List.Basic
import SpeculativeEvm.Code

/-! Where instructions start. No instruction starts inside another one, and the jump destinations
are exactly the `JUMPDEST` bytes that start one: the sweep meets every start and nothing else. -/

namespace SpeculativeEvm.Code

variable {bytes : Bytes} {i j : Nat}

/-- Of two instruction starts, the later one lies past the end of the instruction at the earlier. -/
theorem Boundary.separate (hj : Boundary bytes j) (hi : Boundary bytes i) (h : i < bytes.size) :
    j ≤ i ∨ i + stride bytes[i] ≤ j := by
  induction hj generalizing i with
  | zero => exact .inl (Nat.zero_le i)
  | @next j hsize _ ihj =>
    rcases ihj hi h with hle | hge
    · rcases Nat.lt_or_eq_of_le hle with hlt | rfl
      · -- the start at `j` is earlier than the one at `i`: then so is the end of its instruction
        left
        induction hi with
        | zero => exact absurd hlt (Nat.not_lt_zero j)
        | @next k hk hkb ihk =>
          rcases Nat.lt_trichotomy j k with hjk | rfl | hkj
          · exact Nat.le_trans (ihk hk (Nat.le_of_lt hjk) hjk) (Nat.le_add_right _ _)
          · exact Nat.le_refl _
          · rcases ihj hkb hk with hle' | hge'
            · exact absurd hkj (Nat.not_lt.2 hle')
            · exact absurd hlt (Nat.not_lt.2 hge')
      · exact .inr (Nat.le_refl _)
    · exact .inr (Nat.le_trans hge (Nat.le_add_right _ _))

/-- No instruction starts at an immediate byte. -/
theorem Boundary.not_inside (hj : Boundary bytes j) (hi : Boundary bytes i) (h : i < bytes.size)
    (hlt : i < j) : i + (Instruction.decode bytes[i]).immediateSize < j := by
  rcases hj.separate hi h with hle | hge
  · exact absurd hlt (Nat.not_lt.2 hle)
  · exact hge

/-- Before the instruction after `i` starts, only `i` and what comes before it do. -/
theorem Boundary.lt_next_iff (hj : Boundary bytes j) (hi : Boundary bytes i)
    (h : i < bytes.size) : j < i + stride bytes[i] ↔ j ≤ i := by
  have hpos : 0 < stride bytes[i] := Nat.succ_pos _
  rcases hj.separate hi h with hle | hge
  · exact iff_of_true (by omega) hle
  · exact iff_of_false (by omega) (by omega)

def Exact (bytes : Bytes) (marks : Array Bool) : Prop :=
  ∀ i (h : i < marks.size),
    marks[i] = true ↔ Boundary bytes i ∧ bytes[i]? = some jumpDestByte

theorem Exact.push {marks : Array Bool} {mark : Bool} (hm : Exact bytes marks)
    (h : mark = true ↔ Boundary bytes marks.size ∧ bytes[marks.size]? = some jumpDestByte) :
    Exact bytes (marks.push mark) := by
  intro i hi
  rw [Array.size_push] at hi
  rcases Nat.lt_or_eq_of_le (Nat.le_of_lt_succ hi) with hlt | rfl
  · rw [Array.getElem_push_lt hlt]
    exact hm i hlt
  · rw [Array.getElem_push_eq]
    exact h

/-- The sweep stands `skip` bytes before an instruction start, with none in between. -/
theorem sweep_exact {rest : List UInt8} {marks : Array Bool} {skip : Nat}
    (hm : Exact bytes marks) (hrest : bytes.toList.drop marks.size = rest)
    (hb : Boundary bytes (marks.size + skip))
    (hgap : ∀ j, marks.size ≤ j → j < marks.size + skip → ¬ Boundary bytes j) :
    Exact bytes (sweep marks skip rest) ∧
      (sweep marks skip rest).size = marks.size + rest.length := by
  induction rest generalizing marks skip with
  | nil => cases skip <;> exact ⟨hm, rfl⟩
  | cons b rest ih =>
    have hget : bytes[marks.size]? = some b := by
      rw [← Array.getElem?_toList, ← Nat.add_zero marks.size, ← List.getElem?_drop, hrest]
      rfl
    obtain ⟨hsize, hbyte⟩ := Array.getElem?_eq_some_iff.1 hget
    have hrest' (mark : Bool) : bytes.toList.drop (marks.push mark).size = rest := by
      rw [Array.size_push, ← List.drop_drop, hrest, List.drop_one, List.tail_cons]
    have hlen (mark : Bool) : (marks.push mark).size + rest.length =
        marks.size + (b :: rest).length := by
      rw [Array.size_push, List.length_cons]
      omega
    cases skip with
    | zero =>
      rw [sweep, ← hlen]
      rw [Nat.add_zero] at hb
      have hnext := Boundary.next hsize hb
      rw [hbyte, stride] at hnext
      refine ih (hm.push ?_) (hrest' _) ?_ fun j hj hlt hbj => ?_
      · rw [hget, decide_eq_true_iff, Option.some_inj]
        exact ⟨fun h => ⟨hb, h⟩, fun h => h.2⟩
      · rwa [Array.size_push, Nat.add_right_comm, Nat.add_assoc]
      · rw [Array.size_push] at hj hlt
        have := hbj.not_inside hb hsize hj
        rw [hbyte] at this
        omega
    | succ skip =>
      rw [sweep, ← hlen]
      refine ih (hm.push ?_) (hrest' _) ?_ fun j hj hlt => ?_
      · refine ⟨fun h => absurd h Bool.false_ne_true, fun h => absurd h.1 ?_⟩
        exact hgap _ (Nat.le_refl _) (by omega)
      · rwa [Array.size_push, Nat.add_assoc, Nat.add_comm 1 skip]
      · rw [Array.size_push] at hj hlt
        exact hgap j (by omega) (by omega)

theorem destinations_exact (bytes : Bytes) :
    Exact bytes (destinations bytes) ∧ (destinations bytes).size = bytes.size := by
  have hempty : Exact bytes #[] := fun i hi => absurd hi (Nat.not_lt_zero i)
  have h := @sweep_exact bytes bytes.toList #[] 0 hempty rfl .zero fun j _ hlt =>
    absurd hlt (Nat.not_lt_zero j)
  rwa [Array.size_empty, Nat.zero_add, Array.length_toList] at h

/-- A jump leads to the `JUMPDEST` that starts an instruction there, if there is one. -/
theorem jumpTarget_eq_some_iff (c : Code) (dest : Word) :
    c.jumpTarget dest = some i ↔
      dest.index? = some i ∧ Boundary c.bytes i ∧ c.bytes[i]? = some jumpDestByte := by
  obtain ⟨hexact, hsize⟩ := destinations_exact c.bytes
  rw [jumpTarget, Option.filter_eq_some_iff, c.marks_eq]
  refine and_congr_right fun _ => ?_
  by_cases hi : i < c.bytes.size
  · rw [← hsize] at hi
    rw [Array.getElem?_eq_getElem hi, Option.getD_some, hexact i hi]
  · rw [Array.getElem?_eq_none (by omega), Array.getElem?_eq_none (by omega)]
    simp

end SpeculativeEvm.Code
