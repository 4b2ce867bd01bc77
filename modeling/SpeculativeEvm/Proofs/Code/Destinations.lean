import SpeculativeEvm.Proofs.Bytes
import SpeculativeEvm.Proofs.Code.Boundary

/-! The search for jump destinations as a loop: it looks at the start of one instruction after the
other, with an index that passes over immediate bytes and a list of what it has found. It ends
because every turn moves the index on, and when it has passed the end of the code, wherever the last
immediate would have ended, it has found the destinations and nothing else. -/

namespace SpeculativeEvm.Code

/-- The number of immediate bytes after a byte of code: those of `PUSH1` to `PUSH32` have 1 to 32,
all others none. -/
def pushSize (b : UInt8) : Nat :=
  if 0x60 ≤ b.toNat ∧ b.toNat ≤ 0x7f then b.toNat - 0x5f else 0

theorem stride_eq (b : UInt8) : stride b = pushSize b + 1 :=
  Bytes.of_fin (P := fun b => stride b = pushSize b + 1) (by decide +kernel) b

structure Search where
  index : Nat
  found : List Nat

namespace Search

def start : Search := ⟨0, []⟩

/-- One turn of the loop, unless the end of the code is reached. -/
def turn? (bytes : Bytes) (s : Search) : Option Search :=
  if h : s.index < bytes.size then
    some ⟨s.index + pushSize bytes[s.index] + 1,
      if bytes[s.index] = jumpDestByte then s.index :: s.found else s.found⟩
  else none

/-- From the first search, `turns` turns of the loop lead to the second one, where it ends. -/
inductive Ends (bytes : Bytes) : Search → (turns : Nat) → Search → Prop
  | here {s : Search} (h : s.turn? bytes = none) : Ends bytes s 0 s
  | turn {s t u : Search} {turns : Nat} (h : s.turn? bytes = some t) (ht : Ends bytes t turns u) :
    Ends bytes s (turns + 1) u

variable {bytes : Bytes} {s t u : Search} {turns : Nat}

theorem turn?_eq_none_iff : s.turn? bytes = none ↔ bytes.size ≤ s.index := by
  unfold turn?
  by_cases h : s.index < bytes.size
  · rw [dif_pos h]
    exact iff_of_false nofun (Nat.not_le.2 h)
  · rw [dif_neg h]
    exact iff_of_true rfl (Nat.le_of_not_lt h)

/-- A turn moves the index on, so there are at most as many turns as there are bytes ahead. -/
theorem exists_ends (bytes : Bytes) (s : Search) :
    ∃ turns u, Ends bytes s turns u ∧ turns ≤ bytes.size - s.index := by
  cases ht : s.turn? bytes with
  | none => exact ⟨0, s, .here ht, Nat.zero_le _⟩
  | some t =>
    have hlt : s.index < bytes.size ∧ s.index < t.index := by
      unfold turn? at ht
      split at ht
      · next h =>
        cases ht
        exact ⟨h, by dsimp only; omega⟩
      · cases ht
    obtain ⟨turns, u, hu, hle⟩ := exists_ends bytes t
    exact ⟨turns + 1, u, .turn ht hu, by omega⟩
termination_by bytes.size - s.index

structure Sound (bytes : Bytes) (s : Search) : Prop where
  boundary : Boundary bytes s.index
  found (j : Nat) : j ∈ s.found ↔
    j < s.index ∧ Boundary bytes j ∧ bytes[j]? = some jumpDestByte

theorem sound_start (bytes : Bytes) : start.Sound bytes where
  boundary := .zero
  found j := by simp [start]

theorem Sound.turn (hs : s.Sound bytes) (ht : s.turn? bytes = some t) : t.Sound bytes := by
  unfold turn? at ht
  split at ht
  · next h =>
    cases ht
    have hnext : s.index + pushSize bytes[s.index] + 1 = s.index + stride bytes[s.index] := by
      rw [stride_eq, Nat.add_assoc]
    refine ⟨hnext ▸ .next h hs.boundary, fun j => ?_⟩
    have hlt (hj : Boundary bytes j) :
        j < s.index + pushSize bytes[s.index] + 1 ↔ j < s.index ∨ j = s.index := by
      rw [hnext, hj.lt_next_iff hs.boundary h, Nat.le_iff_lt_or_eq]
    have hget : bytes[s.index]? = some bytes[s.index] := Array.getElem?_eq_getElem h
    dsimp only
    by_cases hd : bytes[s.index] = jumpDestByte
    · rw [if_pos hd, List.mem_cons, hs.found]
      constructor
      · rintro (rfl | ⟨hj, hb, hbyte⟩)
        · exact ⟨(hlt hs.boundary).2 (.inr rfl), hs.boundary, by rw [hget, hd]⟩
        · exact ⟨(hlt hb).2 (.inl hj), hb, hbyte⟩
      · rintro ⟨hj, hb, hbyte⟩
        rcases (hlt hb).1 hj with hj | hj
        · exact .inr ⟨hj, hb, hbyte⟩
        · exact .inl hj
    · rw [if_neg hd, hs.found]
      refine and_congr_left fun ⟨hb, hbyte⟩ => ?_
      have hne : j ≠ s.index := by
        rintro rfl
        rw [hget] at hbyte
        exact hd (Option.some.inj hbyte)
      rw [hlt hb]
      simp [hne]
  · cases ht

theorem Sound.ends (hs : s.Sound bytes) (h : Ends bytes s turns u) :
    u.Sound bytes ∧ bytes.size ≤ u.index := by
  induction h with
  | here h => exact ⟨hs, turn?_eq_none_iff.1 h⟩
  | turn h _ ih => exact ih (hs.turn h)

end Search

theorem index?_eq_some_iff {dest : Word} {i : Nat} :
    dest.index? = some i ↔ dest.toNat = i ∧ i < addressSpace := by
  unfold Word.index?
  split
  · next h =>
    rw [Option.some_inj]
    exact ⟨fun hi => ⟨hi, hi ▸ h⟩, And.left⟩
  · next h =>
    refine iff_of_false nofun ?_
    rintro ⟨rfl, hlt⟩
    exact h hlt

end SpeculativeEvm.Code

namespace SpeculativeEvm

open Code

/-- The search for jump destinations ends after at most one turn for each byte. It has then found
exactly the places a jump can lead to: a jump leads to the number on the stack, however large that
number is, if a `JUMPDEST` starts an instruction there, and nowhere else. No code is longer than the
machine can address. -/
theorem jumpTarget_exact (c : Code) (hsize : c.size ≤ addressSpace) :
    (∃ turns last, Search.Ends c.bytes .start turns last ∧ turns ≤ c.size ∧
      ∀ i, i ∈ last.found ↔ ∃ dest, c.jumpTarget dest = some i) ∧
    ∀ dest : Word,
      (∀ i, c.jumpTarget dest = some i ↔ dest.toNat = i ∧ i < c.size ∧
        c.bytes[i]? = some 0x5b ∧ Boundary c.bytes i) ∧
      (c.isJumpable dest = true ↔ ∃ i, c.jumpTarget dest = some i) := by
  have htarget (dest : Word) (i : Nat) : c.jumpTarget dest = some i ↔
      dest.toNat = i ∧ i < c.size ∧ c.bytes[i]? = some 0x5b ∧ Boundary c.bytes i := by
    rw [jumpTarget_eq_some_iff, index?_eq_some_iff]
    constructor
    · rintro ⟨⟨hi, -⟩, hb, hbyte⟩
      exact ⟨hi, (Array.getElem?_eq_some_iff.1 hbyte).1, hbyte, hb⟩
    · rintro ⟨hi, hlt, hbyte, hb⟩
      exact ⟨⟨hi, Nat.lt_of_lt_of_le hlt hsize⟩, hb, hbyte⟩
  refine ⟨?_, fun dest => ⟨htarget dest, Option.isSome_iff_exists⟩⟩
  obtain ⟨turns, last, hends, hle⟩ := Search.exists_ends c.bytes .start
  obtain ⟨hsound, hend⟩ := (Search.sound_start c.bytes).ends hends
  refine ⟨turns, last, hends, hle, fun i => ?_⟩
  rw [hsound.found]
  constructor
  · rintro ⟨-, hb, hbyte⟩
    have hi := (Array.getElem?_eq_some_iff.1 hbyte).1
    have hword : (BitVec.ofNat 256 i).toNat = i := by
      rw [BitVec.toNat_ofNat]
      refine Nat.mod_eq_of_lt (Nat.lt_trans (Nat.lt_of_lt_of_le hi hsize) ?_)
      decide
    exact ⟨BitVec.ofNat 256 i, (htarget _ i).2 ⟨hword, hi, hbyte, hb⟩⟩
  · rintro ⟨dest, h⟩
    obtain ⟨-, hi, hbyte, hb⟩ := (htarget dest i).1 h
    exact ⟨Nat.lt_of_lt_of_le hi hend, hb, hbyte⟩

def hiddenMarks : Code := .ofBytes #[0x5b, 0x61, 0x5b, 0x5b, 0x5b, 0x62, 0x5b]

/-- A jump can lead to 4, but neither to the last byte nor to 4 bytes past the address space. -/
theorem hiddenMarks_targets : hiddenMarks.size ≤ addressSpace ∧
    hiddenMarks.jumpTarget 4 = some 4 ∧ hiddenMarks.isJumpable 6 = false ∧
    hiddenMarks.isJumpable (BitVec.ofNat 256 (addressSpace + 4)) = false := by
  have hsize : hiddenMarks.size ≤ addressSpace := by decide
  obtain ⟨-, hexact⟩ := jumpTarget_exact hiddenMarks hsize
  have h1 := Boundary.next (by decide : 0 < hiddenMarks.bytes.size) .zero
  rw [(by decide : 0 + stride hiddenMarks.bytes[0] = 1)] at h1
  have h4 := Boundary.next (by decide : 1 < hiddenMarks.bytes.size) h1
  rw [(by decide : 1 + stride hiddenMarks.bytes[1] = 4)] at h4
  have h5 := Boundary.next (by decide : 4 < hiddenMarks.bytes.size) h4
  rw [(by decide : 4 + stride hiddenMarks.bytes[4] = 5)] at h5
  have hnone {dest : Word} (h : ∀ i, hiddenMarks.jumpTarget dest ≠ some i) :
      hiddenMarks.isJumpable dest = false := by
    rw [Bool.eq_false_iff, Ne, (hexact dest).2]
    exact not_exists.2 h
  refine ⟨hsize, ((hexact 4).1 4).2 ⟨by decide, by decide, by decide, h4⟩, hnone fun i hi => ?_,
    hnone fun i hi => ?_⟩
  · obtain ⟨hdest, -, -, hb⟩ := ((hexact 6).1 i).1 hi
    obtain rfl : i = 6 := hdest.symm
    exact absurd (hb.not_inside h5 (by decide) (by decide)) (by decide)
  · obtain ⟨rfl, hlt, -⟩ := ((hexact (BitVec.ofNat 256 (addressSpace + 4))).1 i).1 hi
    exact absurd hlt (by decide +kernel)

end SpeculativeEvm
