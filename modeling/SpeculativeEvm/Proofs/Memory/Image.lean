import Mathlib.Algebra.BigOperators.Group.Finset.Basic
import Mathlib.Algebra.BigOperators.Ring.Finset
import SpeculativeEvm.Proofs.Bytes
import SpeculativeEvm.Proofs.Keeps
import SpeculativeEvm.Proofs.Memory

/-! What a memory stands for: a byte at every offset, zero until it is written. The stored bytes are
a beginning of that image, and all that is not stored is zero. So however lazily the memory grows,
and however its ranges overlap, what is read is what the image holds. -/

namespace SpeculativeEvm

namespace Bytes

/-- The digits of a byte string, each at its place. -/
theorem toNat_ofFn (f : Nat → UInt8) (size : Nat) :
    toNat (Array.ofFn fun i : Fin size => f i) =
      ∑ i ∈ Finset.range size, (f i).toNat * 256 ^ (size - 1 - i) := by
  induction size with
  | zero => simp [toNat]
  | succ size ih =>
    rw [Array.ofFn_succ, toNat_push, Finset.sum_range_succ]
    simp only [Fin.val_castSucc, ih, Finset.sum_mul]
    -- one more byte at the end moves all the others up a place
    have hplace : ∀ i ∈ Finset.range size,
        (f i).toNat * 256 ^ (size - 1 - i) * 256 = (f i).toNat * 256 ^ (size - i) := by
      intro i hi
      have hlt := Finset.mem_range.1 hi
      have hexp : size - i = size - 1 - i + 1 := by omega
      rw [Nat.mul_assoc, hexp, Nat.pow_succ]
    rw [Finset.sum_congr rfl hplace]
    simp

end Bytes

theorem Word.at0_toBytes (w : Word) (i : Nat) :
    w.toBytes.at0 i = if i < 32 then UInt8.ofNat (w.toNat / 256 ^ (31 - i)) else 0 := by
  by_cases h : i < 32
  · have hbits : 2 ^ (8 * (31 - i)) = 256 ^ (31 - i) := by
      rw [Nat.pow_mul]
    simp [toBytes, Bytes.ofNat, Bytes.at0, h, Nat.shiftRight_eq_div_pow, hbits]
  · rw [if_neg h, Bytes.at0_of_size_le]
    simpa [toBytes] using Nat.le_of_not_lt h

abbrev Image := Nat → UInt8

namespace Image

def blank : Image := fun _ => 0

/-- The bytes of a range become those of `value`, then zeros. -/
def put (image : Image) (offset size : Nat) (value : Bytes) : Image := fun i =>
  if offset ≤ i ∧ i < offset + size then value.at0 (i - offset) else image i

def putWord (image : Image) (offset : Nat) (w : Word) : Image := fun i =>
  if offset ≤ i ∧ i < offset + 32 then UInt8.ofNat (w.toNat / 256 ^ (31 - (i - offset)))
  else image i

def putByte (image : Image) (offset : Nat) (b : UInt8) : Image := fun i =>
  if i = offset then b else image i

def slice (image : Image) (offset size : Nat) : Bytes :=
  Array.ofFn fun i : Fin size => image (offset + i)

/-- The word of the 32 bytes from `offset`, the most significant one first. -/
def word (image : Image) (offset : Nat) : Word :=
  BitVec.ofNat 256 (∑ i ∈ Finset.range 32, (image (offset + i)).toNat * 256 ^ (31 - i))

theorem ofBytes_slice (image : Image) (offset : Nat) :
    Word.ofBytes (image.slice offset 32) = image.word offset := by
  rw [Word.ofBytes, slice, Bytes.toNat_ofFn fun i => image (offset + i)]
  rfl

theorem put_toBytes (image : Image) (offset : Nat) (w : Word) :
    image.put offset 32 w.toBytes = image.putWord offset w := by
  funext i
  unfold put putWord
  by_cases h : offset ≤ i ∧ i < offset + 32
  · rw [if_pos h, if_pos h, Word.at0_toBytes, if_pos (by omega)]
  · rw [if_neg h, if_neg h]

theorem put_singleton (image : Image) (offset : Nat) (b : UInt8) :
    image.put offset 1 #[b] = image.putByte offset b := by
  funext i
  unfold put putByte
  by_cases h : i = offset
  · subst h
    simp [Bytes.at0]
  · rw [if_neg h, if_neg (by omega)]

end Image

namespace Memory

structure Holds (m : Memory) (image : Image) : Prop where
  stored (i : Nat) (h : i < m.data.size) : m.data[i] = image i
  beyond (i : Nat) (h : m.data.size ≤ i) : image i = 0

theorem holds_iff {m : Memory} {image : Image} :
    m.Holds image ↔ ∀ i, m.data.at0 i = image i := by
  constructor
  · intro h i
    by_cases hi : i < m.data.size
    · rw [Bytes.at0_of_lt hi, h.stored i hi]
    · have hle := Nat.le_of_not_lt hi
      rw [Bytes.at0_of_size_le hle, h.beyond i hle]
  · intro h
    refine ⟨fun i hi => ?_, fun i hi => ?_⟩
    · rw [← h i, Bytes.at0_of_lt hi]
    · rw [← h i, Bytes.at0_of_size_le hi]

theorem Holds.window_eq_slice {m : Memory} {image : Image} (h : m.Holds image)
    (offset size : Nat) : m.data.window offset size = image.slice offset size := by
  simp only [Bytes.window, Image.slice, holds_iff.1 h]

inductive Op
  | expand (offset size : Nat)
  | get (offset size : Nat)
  | set (offset size : Nat) (value : Bytes)
  | setWord (offset : Nat) (w : Word)
  | setByte (offset : Nat) (b : UInt8)
  | load (offset : Nat)

inductive Answer
  | done
  | bytes (bytes : Bytes)
  | word (w : Word)
  deriving DecidableEq

namespace Op

def perform : Op → Action Memory Answer
  | expand offset size => do
    Memory.expand offset size
    return .done
  | get offset size => return .bytes (← Memory.get offset size)
  | set offset size value => do
    Memory.set offset size value
    return .done
  | setWord offset w => do
    Memory.setWord offset w
    return .done
  | setByte offset b => do
    Memory.setByte offset b
    return .done
  | load offset => return .word (← Memory.load offset)

def offset : Op → Nat
  | expand offset _ | get offset _ | set offset _ _ => offset
  | setWord offset _ | setByte offset _ | load offset => offset

def size : Op → Nat
  | expand _ size | get _ size | set _ size _ => size
  | setWord _ _ | load _ => 32
  | setByte _ _ => 1

/-- Whether the operation reads without making room. -/
def onlyReads : Op → Bool
  | get _ _ => true
  | _ => false

/-- The image after the operation has succeeded. -/
def store (image : Image) : Op → Image
  | set offset size value => image.put offset size value
  | setWord offset w => image.putWord offset w
  | setByte offset b => image.putByte offset b
  | expand _ _ | get _ _ | load _ => image

def answer (image : Image) : Op → Answer
  | get offset size => .bytes (image.slice offset size)
  | load offset => .word (image.word offset)
  | expand _ _ | set _ _ _ | setWord _ _ | setByte _ _ => .done

end Op

section Growth

variable {m : Memory} {image : Image} {offset size : Nat} (hl : m.limit ≤ addressSpace - 32)
  (hm : m.Holds image)

include hl hm

theorem grow_holds (hfit : offset + size ≤ m.limit) : (m.grow (offset + size)).Holds image := by
  obtain ⟨-, hread⟩ := m.grow_spec (hfit.trans hl) hfit
  refine holds_iff.2 fun i => ?_
  rw [hread, holds_iff.1 hm]

theorem write_holds (hfit : offset + size ≤ m.limit) (value : Bytes) :
    (m.write offset size value).Holds (image.put offset size value) := by
  obtain ⟨hroom, hread⟩ := m.grow_spec (hfit.trans hl) hfit
  refine holds_iff.2 fun i => ?_
  rw [write, at0_blit _ hroom, hread, holds_iff.1 hm]
  rfl

end Growth

theorem limit_grow (m : Memory) (stop : Nat) : (m.grow stop).limit = m.limit := by
  unfold grow
  split <;> rfl

theorem limit_write (m : Memory) (offset size : Nat) (value : Bytes) :
    (m.write offset size value).limit = m.limit :=
  m.limit_grow (offset + size)

theorem load_apply (offset : Nat) (m : Memory) : load offset m =
    match refusal m.limit offset 32 with
    | some fault => .error fault m
    | none =>
      let grown := m.grow (offset + 32)
      .ok (.ofBytes (grown.data.window offset 32)) grown := by
  rw [load, Action.bind_apply, expand, if_neg (by decide)]
  cases refusal m.limit offset 32 <;> rfl

theorem refusal_eq_none_of_le {limit offset size : Nat} (hl : limit ≤ addressSpace - 32)
    (h : offset + size ≤ limit) : refusal limit offset size = none := by
  refine (refusal_eq_none_iff _ _ _).2 ⟨?_, h⟩
  unfold addressSpace UInt64.size at *
  omega

namespace Op

def Fits (op : Op) (limit : Nat) : Prop := op.size = 0 ∨ op.offset + op.size ≤ limit

inductive Performed (op : Op) (m : Memory) (image : Image) :
    EStateM.Result Fault Memory Answer → Prop
  | accepted {m' : Memory} (hfits : op.Fits m.limit) (hm : m'.Holds (op.store image))
    (hl : m'.limit = m.limit) (hr : op.onlyReads = true → m' = m) :
    Performed op m image (.ok (op.answer image) m')
  | refused {e : Fault} (hfits : ¬ op.Fits m.limit) : Performed op m image (.error e m)

section Perform

variable {m : Memory} {image : Image} (hl : m.limit ≤ addressSpace - 32)

include hl

/-- An operation on a range does nothing if the range is empty, and is refused if it reaches past
the limit. What remains to be shown is what it does within the limit. -/
theorem performed_of_range {α : Type} (op : Op) (f : α → Answer) (act : Action Memory α)
    {a b : α} {m' : Memory} (hp : op.perform = act >>= fun a => pure (f a))
    (hact : act m = if op.size = 0 then .ok a m
      else
        match refusal m.limit op.offset op.size with
        | some fault => .error fault m
        | none => .ok b m')
    (hempty : op.size = 0 → f a = op.answer image ∧ m.Holds (op.store image))
    (hfull : op.offset + op.size ≤ m.limit → f b = op.answer image ∧
      m'.Holds (op.store image) ∧ m'.limit = m.limit ∧ (op.onlyReads = true → m' = m)) :
    op.Performed m image (op.perform m) := by
  rw [hp]
  by_cases hz : op.size = 0
  · obtain ⟨ha, hm⟩ := hempty hz
    rw [if_pos hz] at hact
    rw [Action.bind_of_ok hact, ha]
    exact .accepted (.inl hz) hm rfl fun _ => rfl
  rw [if_neg hz] at hact
  by_cases hle : op.offset + op.size ≤ m.limit
  · obtain ⟨hb, hm, hlimit, hr⟩ := hfull hle
    rw [refusal_eq_none_of_le hl hle] at hact
    rw [Action.bind_of_ok hact, hb]
    exact .accepted (.inr hle) hm hlimit hr
  · cases hf : refusal m.limit op.offset op.size with
    | none => exact absurd ((refusal_eq_none_iff _ _ _).1 hf).2 hle
    | some fault =>
      rw [hf] at hact
      rw [Action.bind_of_error hact]
      refine .refused ?_
      rintro (hz' | hle')
      · exact hz hz'
      · exact hle hle'

variable (hm : m.Holds image)

include hm

theorem expand_performed (offset size : Nat) :
    (expand offset size).Performed m image ((expand offset size).perform m) :=
  performed_of_range hl (expand offset size) (fun _ => .done) (Memory.expand offset size) rfl rfl
    (fun _ => ⟨rfl, hm⟩)
    fun hle => ⟨rfl, grow_holds hl hm hle, m.limit_grow _, nofun⟩

theorem get_performed (offset size : Nat) :
    (get offset size).Performed m image ((get offset size).perform m) := by
  refine performed_of_range hl (get offset size) .bytes (Memory.get offset size) rfl rfl ?_ ?_
  · intro hz
    obtain rfl : size = 0 := hz
    exact ⟨rfl, hm⟩
  · intro _
    refine ⟨?_, hm, rfl, fun _ => rfl⟩
    rw [hm.window_eq_slice]
    rfl

theorem set_performed (offset size : Nat) (value : Bytes) :
    (set offset size value).Performed m image ((set offset size value).perform m) := by
  refine performed_of_range hl (set offset size value) (fun _ => .done)
    (Memory.set offset size value) rfl rfl ?_ ?_
  · intro hz
    obtain rfl : size = 0 := hz
    have hput : image.put offset 0 value = image := by
      funext i
      exact if_neg (by omega)
    refine ⟨rfl, ?_⟩
    rw [store, hput]
    exact hm
  · intro hle
    exact ⟨rfl, write_holds hl hm hle value, m.limit_write _ _ _, nofun⟩

theorem load_performed (offset : Nat) :
    (load offset).Performed m image ((load offset).perform m) := by
  refine performed_of_range hl (load offset) .word (Memory.load offset) (a := 0) rfl
    (load_apply offset m) nofun ?_
  intro hle
  have hgrown : (m.grow (offset + 32)).Holds image := grow_holds hl hm hle
  refine ⟨?_, hgrown, m.limit_grow _, nofun⟩
  rw [hgrown.window_eq_slice, Image.ofBytes_slice]
  rfl

theorem setWord_performed (offset : Nat) (w : Word) :
    (setWord offset w).Performed m image ((setWord offset w).perform m) := by
  refine performed_of_range hl (setWord offset w) (fun _ => .done) (Memory.setWord offset w)
    (a := ()) rfl rfl nofun ?_
  intro hle
  refine ⟨rfl, ?_, m.limit_write _ _ _, nofun⟩
  rw [store, ← image.put_toBytes]
  exact write_holds hl hm hle w.toBytes

theorem setByte_performed (offset : Nat) (b : UInt8) :
    (setByte offset b).Performed m image ((setByte offset b).perform m) := by
  refine performed_of_range hl (setByte offset b) (fun _ => .done) (Memory.setByte offset b)
    (a := ()) rfl rfl nofun ?_
  intro hle
  refine ⟨rfl, ?_, m.limit_write _ _ _, nofun⟩
  rw [store, ← image.put_singleton]
  exact write_holds hl hm hle #[b]

theorem perform_performed (op : Op) : op.Performed m image (op.perform m) := by
  cases op with
  | expand offset size => exact expand_performed hl hm offset size
  | get offset size => exact get_performed hl hm offset size
  | set offset size value => exact set_performed hl hm offset size value
  | setWord offset w => exact setWord_performed hl hm offset w
  | setByte offset b => exact setByte_performed hl hm offset b
  | load offset => exact load_performed hl hm offset

end Perform

end Op

structure Tracked where
  memory : Memory
  image : Image

namespace Tracked

def fresh (limit : Nat) : Tracked := ⟨.empty limit, .blank⟩

/-- Performs an operation; one that fails leaves the image as it is. -/
def step (s : Tracked) (op : Op) : Tracked :=
  match op.perform s.memory with
  | .ok _ m => ⟨m, op.store s.image⟩
  | .error _ m => ⟨m, s.image⟩

structure Faithful (limit : Nat) (s : Tracked) : Prop where
  holds : s.memory.Holds s.image
  limit : s.memory.limit = limit

theorem faithful_fresh (limit : Nat) : (fresh limit).Faithful limit := by
  refine ⟨⟨fun i h => ?_, fun i _ => rfl⟩, rfl⟩
  exact absurd h (Nat.not_lt_zero i)

variable {limit : Nat} {s : Tracked}

theorem Faithful.step (hl : limit ≤ addressSpace - 32) (h : s.Faithful limit) (op : Op) :
    (s.step op).Faithful limit := by
  have hlimit := h.limit
  subst hlimit
  have hp := Op.perform_performed hl h.holds op
  unfold Tracked.step
  generalize op.perform s.memory = r at hp
  cases hp with
  | accepted _ hm hlimit _ => exact ⟨hm, hlimit⟩
  | refused => exact ⟨h.holds, rfl⟩

theorem Faithful.foldl_step (hl : limit ≤ addressSpace - 32) (h : s.Faithful limit)
    (history : List Op) : (history.foldl Tracked.step s).Faithful limit := by
  induction history generalizing s with
  | nil => exact h
  | cons op history ih => exact ih (h.step hl op)

end Tracked

/-- After any history of operations on a memory that starts empty, the stored bytes are those of the
image of all that has been written, and the image is zero beyond them. The next operation succeeds
exactly if its range is empty or within the limit. If it does, it returns what the image holds, and
the memory stays as it is if the operation only reads and makes no room; if not, nothing changes. -/
theorem memory_refines_image {limit : Nat} (hl : limit ≤ addressSpace - 32) (history : List Op) :
    let s := history.foldl Tracked.step (.fresh limit)
    s.memory.Holds s.image ∧ ∀ op : Op,
      ((∃ answer m, op.perform s.memory = .ok answer m) ↔ op.Fits limit) ∧
      (∀ answer m, op.perform s.memory = .ok answer m →
        answer = op.answer s.image ∧ (op.onlyReads = true → m = s.memory)) ∧
      ∀ e m, op.perform s.memory = .error e m → m = s.memory := by
  intro s
  have hs : s.Faithful limit := (Tracked.faithful_fresh limit).foldl_step hl history
  refine ⟨hs.holds, fun op => ?_⟩
  have hp := Op.perform_performed (hs.limit ▸ hl) hs.holds op
  generalize op.perform s.memory = r at hp ⊢
  cases hp with
  | accepted hfits _ _ hr =>
    refine ⟨⟨fun _ => hs.limit ▸ hfits, fun _ => ⟨_, _, rfl⟩⟩, fun answer m h => ?_, nofun⟩
    cases h
    exact ⟨rfl, hr⟩
  | refused hfits =>
    refine ⟨⟨nofun, fun h => absurd (hs.limit ▸ h) hfits⟩, nofun, fun e m h => ?_⟩
    cases h
    rfl

def overlappingWrites : List Op :=
  [.setWord 0 (.allOnes 256), .set 30 2 #[7, 8, 9], .setByte 33 5]

/-- A read across the end of what is stored shows the last writes and zeros. -/
theorem overlappingWrites_read :
    let s := overlappingWrites.foldl Tracked.step (.fresh 40)
    40 ≤ addressSpace - 32 ∧ (Op.get 29 9).Fits 40 ∧
      (Op.get 29 9).perform s.memory = .ok (.bytes #[255, 7, 8, 0, 5, 0, 0, 0, 0]) s.memory := by
  intro s
  have hl : 40 ≤ addressSpace - 32 := by decide
  have hfits : (Op.get 29 9).Fits 40 := .inr (by decide)
  refine ⟨hl, hfits, ?_⟩
  obtain ⟨-, hnext⟩ := memory_refines_image hl overlappingWrites
  obtain ⟨haccepted, hread, -⟩ := hnext (.get 29 9)
  obtain ⟨answer, m, hp⟩ := haccepted.2 hfits
  obtain ⟨rfl, hsame⟩ := hread answer m hp
  have hmemory : m = s.memory := hsame rfl
  have hbytes : (Op.get 29 9).answer s.image = .bytes #[255, 7, 8, 0, 5, 0, 0, 0, 0] := by
    decide +kernel
  rw [hp, hmemory, hbytes]

end Memory

end SpeculativeEvm
