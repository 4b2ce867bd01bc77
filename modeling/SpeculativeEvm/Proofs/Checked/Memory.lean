import SpeculativeEvm.Proofs.Checked.Bytes
import SpeculativeEvm.Proofs.Checked.Computation

/-! The memory of a frame by slices with bounds. A range that is not refused lies in the memory once
that has grown, and growing does not overflow, so long as the limit leaves room for a word more. -/

namespace SpeculativeEvm.Checked

/-- Work on a range, which nothing comes of if the range is empty, and a fault if it is refused. -/
def inRange {α : Type} (offset size : Nat) (empty : α) (work : Checked Memory α) :
    Checked Memory α := fun m =>
  if size = 0 then some (.ok empty m)
  else
    match Memory.refusal m.limit offset size with
    | some fault => some (.error fault m)
    | none => work m

def onData (f : Bytes → Option Bytes) : Checked Memory Unit := fun m =>
  match f m.data with
  | none => none
  | some data => some (.ok () { m with data })

def grow (stop : Nat) : Checked Memory Unit := fun m =>
  if m.data.size < stop then
    match mul ((stop + 31) / 32) 32 with
    | none => none
    | some aligned => some (.ok () { m with data := Memory.resize m.data (min aligned m.limit) })
  else some (.ok () m)

def expand (offset size : Nat) : Checked Memory Unit :=
  inRange offset size () (grow (offset + size))

/-- The bytes of a range, zeros where there are none. -/
def bytesAt (data : Bytes) (offset size : Nat) : Option Bytes :=
  if offset + size ≤ data.size then slice data offset (offset + size)
  else if offset < data.size then do
    let available ← sub data.size offset
    overwrite (Array.replicate size 0) 0 available (← slice data offset data.size)
  else some (Array.replicate size 0)

def getBytes (offset size : Nat) : Checked Memory Bytes :=
  inRange offset size #[] fun m =>
    match bytesAt m.data offset size with
    | none => none
    | some bytes => some (.ok bytes m)

/-- The stored bytes with `value` at `offset`, cut or filled with zeros to `size`. -/
def stored (offset size : Nat) (value data : Bytes) : Option Bytes := do
  let copied := min value.size size
  let middle ← add offset copied
  let data ← overwrite data offset middle (← slice value 0 copied)
  overwrite data middle (← add offset size) (Array.replicate (size - copied) 0)

def setBytes (offset size : Nat) (value : Bytes) : Checked Memory Unit :=
  inRange offset size () do
    expand offset size
    onData (stored offset size value)

def copyBytes (offset size : Nat) (source : Bytes) (start : Nat) : Checked Memory Unit := do
  setBytes offset size (← paddedSlice source start size)

def storedByte (offset : Nat) (b : UInt8) (data : Bytes) : Option Bytes :=
  if offset < data.size then some (data.setIfInBounds offset b) else none

def setByte (offset : Nat) (b : UInt8) : Checked Memory Unit := do
  expand offset 1
  onData (storedByte offset b)

def wordAt (data : Bytes) (offset : Nat) : Option Word := do
  wordOf (← slice data offset (← add offset 32))

def loadWord (offset : Nat) : Checked Memory Word := do
  expand offset 32
  wordAt (← lift MonadState.get).data offset

variable {m : Memory} {offset size : Nat}

theorem bytesAt_eq (data : Bytes) (offset size : Nat) :
    bytesAt data offset size = some (data.window offset size) := by
  unfold bytesAt
  by_cases hin : offset + size ≤ data.size
  · rw [if_pos hin, slice_eq (Nat.le_add_right _ _) hin, Nat.add_sub_cancel_left]
  · rw [if_neg hin]
    by_cases hsome : offset < data.size
    · have hle := Nat.le_of_lt hsome
      simp only [if_pos hsome, sub_eq hle, slice_eq hle (Nat.le_refl _), Option.bind_eq_bind,
        Option.bind_some]
      rw [overwrite_eq (Nat.zero_le _) (by simp; omega) (by simp)]
      refine congrArg some (Bytes.ext_at0 (by simp [Memory.size_blit]) fun i hi => ?_)
      rw [Bytes.size_window] at hi
      rw [Memory.at0_blit _ (by simp; omega), Bytes.at0_replicate, Bytes.at0_window,
        Bytes.at0_window, if_pos hi]
      by_cases hlow : i < data.size - offset
      · rw [if_pos (by omega), if_pos (by omega), Nat.sub_zero]
      · rw [if_neg (by omega), Bytes.at0_of_size_le (by omega)]
    · rw [if_neg hsome]
      refine congrArg some (Bytes.ext_at0 (by simp) fun i hi => ?_)
      rw [Bytes.size_window] at hi
      rw [Bytes.at0_replicate, Bytes.at0_window, if_pos hi, Bytes.at0_of_size_le (by omega)]

/-- What lies in the memory is overwritten as a whole. -/
theorem stored_eq {value data : Bytes} (hspace : offset + size < addressSpace)
    (h : offset + size ≤ data.size) :
    stored offset size value data = some (Memory.blit data offset size value) := by
  unfold stored
  dsimp only
  generalize hcopied : min value.size size = copied
  have hfits : copied ≤ value.size := by omega
  simp only [Option.bind_eq_bind, add_eq (show offset + copied < addressSpace by omega),
    add_eq hspace, slice_eq (Nat.zero_le _) hfits, Option.bind_some]
  rw [overwrite_eq (by omega) (by omega) (by simp), Option.bind_some,
    overwrite_eq (by omega) (by rw [Memory.size_blit]; exact h) (by simp; omega)]
  refine congrArg some (Bytes.ext_at0 (by simp [Memory.size_blit]) fun i _ => ?_)
  rw [Memory.at0_blit _ (by rw [Memory.size_blit]; omega), Memory.at0_blit _ (by omega),
    Memory.at0_blit _ h, Bytes.at0_replicate, Bytes.at0_window]
  by_cases hout : offset ≤ i ∧ i < offset + size
  · rw [if_pos hout]
    by_cases hcopy : i < offset + copied
    · rw [if_neg (by omega), if_pos (by omega), if_pos (by omega), Nat.zero_add]
    · rw [if_pos (by omega), Bytes.at0_of_size_le (by omega)]
  · rw [if_neg (by omega), if_neg (by omega), if_neg hout]

theorem grow_eq {stop : Nat} (hm : Spacious m) (hs : stop ≤ m.limit) :
    grow stop m = some (.ok () (m.grow stop)) := by
  unfold grow Memory.grow
  by_cases h : m.data.size < stop
  · have hspace : m.limit + 32 ≤ addressSpace := hm
    have hlt : (stop + 31) / 32 * 32 < addressSpace := by omega
    rw [if_pos h, if_pos h, mul_eq hlt, Memory.wordAligned, Nat.mod_eq_of_lt hlt]
  · rw [if_neg h, if_neg h]

/-- A range within the limit, once it is part of the memory, can be overwritten. -/
theorem stored_grow {value : Bytes} (hm : Spacious m) (hl : offset + size ≤ m.limit) :
    stored offset size value (m.grow (offset + size)).data =
      some (m.write offset size value).data := by
  have hspace : m.limit + 32 ≤ addressSpace := hm
  obtain ⟨hroom, -⟩ := m.grow_spec (by omega) hl
  exact stored_eq (by omega) hroom

/-- What a range that is accepted comes to: a value and a change of the memory. -/
def ranged {α : Type} (offset size : Nat) (empty : α) (f : Memory → α) (k : Memory → Memory) :
    Action Memory α := fun m =>
  if size = 0 then .ok empty m
  else
    match Memory.refusal m.limit offset size with
    | some fault => .error fault m
    | none => .ok (f m) (k m)

theorem expand_of_within (hm : Spacious m) (hz : size ≠ 0) (hl : offset + size ≤ m.limit) :
    expand offset size m = some (.ok () (m.grow (offset + size))) := by
  have hspace : m.limit + 32 ≤ addressSpace := hm
  have hr := (Memory.refusal_eq_none_iff m.limit offset size).2 ⟨by omega, hl⟩
  unfold expand inRange
  rw [if_neg hz, hr]
  exact grow_eq hm hl

theorem expand_of_refused {fault : Fault} (hz : size ≠ 0)
    (hr : Memory.refusal m.limit offset size = some fault) :
    expand offset size m = some (.error fault m) := by
  unfold expand inRange
  rw [if_neg hz, hr]

namespace Agrees

/-- Work on a range agrees if it does where the range lies within the limit. -/
theorem ranged {α : Type} (offset size : Nat) (empty : α) {work : Checked Memory α}
    {f : Memory → α} {k : Memory → Memory}
    (h : ∀ m, Spacious m → size ≠ 0 → offset + size ≤ m.limit →
      work m = some (.ok (f m) (k m)) ∧ (k m).limit = m.limit) :
    Agrees Spacious (inRange offset size empty work) (ranged offset size empty f k) := by
  intro m hm
  unfold inRange Checked.ranged Action.final
  dsimp only
  by_cases hz : size = 0
  · rw [if_pos hz, if_pos hz]
    exact ⟨rfl, hm⟩
  · rw [if_neg hz, if_neg hz]
    cases hr : Memory.refusal m.limit offset size with
    | some fault => exact ⟨rfl, hm⟩
    | none =>
      obtain ⟨-, hl⟩ := (Memory.refusal_eq_none_iff _ _ _).1 hr
      obtain ⟨hwork, hlimit⟩ := h m hm hz hl
      refine ⟨hwork, ?_⟩
      show (k m).limit + 32 ≤ addressSpace
      rw [hlimit]
      exact hm

theorem getBytes (offset size : Nat) :
    Agrees Spacious (getBytes offset size) (Memory.get offset size) :=
  ranged offset size #[] fun m _ _ _ => ⟨by rw [bytesAt_eq], rfl⟩

theorem setBytes (offset size : Nat) (value : Bytes) :
    Agrees Spacious (setBytes offset size value) (Memory.set offset size value) := by
  refine ranged offset size () fun m hm hz hl => ⟨?_, m.limit_grow _⟩
  rw [bind_of_ok (expand_of_within hm hz hl), onData, stored_grow hm hl]
  rfl

theorem copyBytes (offset size : Nat) {source : Bytes} (hs : source.size < addressSpace)
    (start : Nat) :
    Agrees Spacious (copyBytes offset size source start)
      (Memory.copyFrom offset size source start) :=
  part_bind (paddedSlice_eq hs start size) (setBytes offset size _)

/-- What comes after the memory has grown agrees if it does where the memory has room for the
range. -/
theorem expand_bind {α : Type} {offset size : Nat} (empty : α) {work : Unit → Checked Memory α}
    {f : Memory → α} {k : Memory → Memory} (hz : size ≠ 0)
    (h : ∀ m, Spacious m → offset + size ≤ m.limit →
      work () (m.grow (offset + size)) = some (.ok (f m) (k m)) ∧ (k m).limit = m.limit) :
    Agrees Spacious (expand offset size >>= work)
      (Checked.ranged offset size empty f k) := by
  intro m hm
  have hranged : Agrees Spacious (inRange offset size empty fun m => some (.ok (f m) (k m)))
      (Checked.ranged offset size empty f k) :=
    ranged offset size empty fun m hm _ hl => ⟨rfl, (h m hm hl).2⟩
  refine ⟨?_, (hranged m hm).2⟩
  unfold Checked.ranged
  rw [if_neg hz]
  cases hr : Memory.refusal m.limit offset size with
  | some fault => exact bind_of_error (expand_of_refused hz hr)
  | none =>
    obtain ⟨-, hl⟩ := (Memory.refusal_eq_none_iff _ _ _).1 hr
    rw [bind_of_ok (expand_of_within hm hz hl)]
    exact (h m hm hl).1

theorem setByte (offset : Nat) (b : UInt8) :
    Agrees Spacious (setByte offset b) (Memory.setByte offset b) := by
  refine expand_bind () (by decide) fun m hm hl => ⟨?_, m.limit_grow _⟩
  have hspace : m.limit + 32 ≤ addressSpace := hm
  obtain ⟨hroom, -⟩ := m.grow_spec (by omega) hl
  rw [onData, storedByte, if_pos (by omega)]
  rfl

theorem loadWord (offset : Nat) :
    Agrees Spacious (loadWord offset) (Memory.load offset) := by
  have hload : Memory.load offset = Checked.ranged offset 32 0
      (fun m => Word.ofBytes ((m.grow (offset + 32)).data.window offset 32))
      fun m => m.grow (offset + 32) := by
    funext m
    rw [Memory.load_apply]
    exact (if_neg (by decide)).symm
  rw [hload]
  refine expand_bind 0 (by decide) fun m hm hl => ⟨?_, m.limit_grow _⟩
  have hspace : m.limit + 32 ≤ addressSpace := hm
  obtain ⟨hroom, -⟩ := m.grow_spec (by omega) hl
  have hword : wordAt (m.grow (offset + 32)).data offset =
      some (.ofBytes ((m.grow (offset + 32)).data.window offset 32)) := by
    unfold wordAt
    simp only [Option.bind_eq_bind, add_eq (show offset + 32 < addressSpace by omega),
      Option.bind_some, slice_eq (Nat.le_add_right _ _) hroom, Nat.add_sub_cancel_left]
    exact wordOf_eq (by simp)
  show (wordAt _ offset).map _ = _
  rw [hword]
  rfl

end Agrees

end SpeculativeEvm.Checked
