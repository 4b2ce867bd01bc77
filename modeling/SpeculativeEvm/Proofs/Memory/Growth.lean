import SpeculativeEvm.Proofs.Memory.Image

/-! How a memory grows. Its size is a number of whole words or the limit, and growing adds zeros at
the end and changes nothing else, whatever the limit is, if the range ends a word or more before the
end of the address space. For a range that ends later the next whole word is past that end: rounding
up comes to zero, and the memory is left with no bytes at all. -/

namespace SpeculativeEvm.Memory

/-- The memories that operations make of an empty one, whether or not they succeed. -/
inductive Reached (limit : Nat) : Memory → Prop
  | empty : Reached limit (.empty limit)
  | perform {m : Memory} (h : Reached limit m) (op : Op) : Reached limit (op.perform.final m)

structure Shaped (m : Memory) : Prop where
  le_limit : m.size ≤ m.limit
  words : 32 ∣ m.size ∨ m.size = m.limit

theorem shaped_empty (limit : Nat) : (empty limit).Shaped :=
  ⟨Nat.zero_le limit, .inl (Nat.dvd_zero 32)⟩

theorem dvd_wordAligned (n : Nat) : 32 ∣ wordAligned n := by
  unfold wordAligned addressSpace UInt64.size
  omega

/-- The next whole word after an end in the last word of the address space is out of reach. -/
theorem wordAligned_eq_zero {n : Nat} (h : addressSpace - 32 < n) (hn : n < addressSpace) :
    wordAligned n = 0 := by
  unfold wordAligned
  unfold addressSpace UInt64.size at *
  omega

theorem grow_of_le {m : Memory} {stop : Nat} (h : stop ≤ m.size) : m.grow stop = m :=
  if_neg (Nat.not_lt.2 h)

theorem grow_of_lt {m : Memory} {stop : Nat} (h : m.size < stop) :
    m.grow stop = { m with data := resize m.data (min (wordAligned stop) m.limit) } :=
  if_pos h

theorem size_grow (m : Memory) (stop : Nat) :
    (m.grow stop).size = if m.size < stop then min (wordAligned stop) m.limit else m.size := by
  split
  · next h =>
    rw [grow_of_lt h]
    exact size_resize _ _
  · next h => rw [grow_of_le (Nat.le_of_not_lt h)]

theorem Shaped.grow {m : Memory} (hm : m.Shaped) (stop : Nat) : (m.grow stop).Shaped := by
  have hle := hm.le_limit
  have hdvd := dvd_wordAligned stop
  refine ⟨?_, ?_⟩ <;> rw [size_grow, limit_grow] <;> split
  · exact Nat.min_le_right _ _
  · exact hle
  · rcases Nat.le_total (wordAligned stop) m.limit with h | h
    · rw [Nat.min_eq_left h]
      exact .inl hdvd
    · exact .inr (Nat.min_eq_right h)
  · exact hm.words

structure KeepsShape (m m' : Memory) : Prop where
  limit : m'.limit = m.limit
  shaped : m.Shaped → m'.Shaped

instance : IsPreorder Memory KeepsShape where
  refl _ := ⟨rfl, id⟩
  trans _ _ _ h h' := ⟨h'.limit.trans h.limit, h'.shaped ∘ h.shaped⟩

theorem keepsShape_grow (m : Memory) (stop : Nat) : KeepsShape m (m.grow stop) :=
  ⟨m.limit_grow stop, fun h => h.grow stop⟩

theorem keepsShape_write (m : Memory) (offset size : Nat) (value : Bytes) :
    KeepsShape m (m.write offset size value) where
  limit := m.limit_write offset size value
  shaped h := by
    have hsize : (m.write offset size value).size = (m.grow (offset + size)).size :=
      size_blit _ _ _ _
    have hgrown := h.grow (offset + size)
    refine ⟨?_, ?_⟩ <;> rw [hsize]
    · exact hgrown.le_limit
    · exact hgrown.words

theorem keepsShape_of_worked {α : Type} {x : Action Memory α} {k : Memory → Memory}
    {offset size : Nat} (hk : ∀ m, KeepsShape m (k m))
    (h : ∀ m, Worked offset size m (k m) (x m)) : x.Keeps KeepsShape := by
  intro m
  have hw := h m
  unfold Action.final
  generalize x m = r at hw ⊢
  cases hw with
  | empty | refused => exact refl_of KeepsShape m
  | done => exact hk m

theorem expand_keepsShape (offset size : Nat) : (expand offset size).Keeps KeepsShape :=
  keepsShape_of_worked (fun m => m.keepsShape_grow _) fun m => m.expand_worked offset size

theorem set_keepsShape (offset size : Nat) (value : Bytes) :
    (set offset size value).Keeps KeepsShape :=
  keepsShape_of_worked (fun m => m.keepsShape_write _ _ _) fun m => m.set_worked offset size value

theorem Op.perform_keepsShape (op : Op) : op.perform.Keeps KeepsShape := by
  cases op with
  | expand offset size => exact .bind (expand_keepsShape offset size) fun _ => .pure _
  | get offset size =>
    exact .bind (keepsShape_of_worked (refl_of KeepsShape) fun m => m.get_worked offset size)
      fun _ => .pure _
  | set offset size value => exact .bind (set_keepsShape offset size value) fun _ => .pure _
  | setWord offset w => exact .bind (set_keepsShape offset 32 w.toBytes) fun _ => .pure _
  | setByte offset b => exact .bind (set_keepsShape offset 1 #[b]) fun _ => .pure _
  | load offset =>
    exact .bind (.bind (expand_keepsShape offset 32) fun _ => .bind .get fun _ => .pure _)
      fun _ => .pure _

theorem Reached.shaped {limit : Nat} {m : Memory} (h : Reached limit m) :
    m.limit = limit ∧ m.Shaped := by
  induction h with
  | empty => exact ⟨rfl, shaped_empty limit⟩
  | @perform m _ op ih =>
    have hstep := op.perform_keepsShape m
    exact ⟨hstep.limit.trans ih.1, hstep.shaped ih.2⟩

/-- The second memory is the first one with zeros at its end, enough of them for a range that ends
at `stop`. -/
structure Extends (m : Memory) (stop : Nat) (m' : Memory) : Prop where
  room : stop ≤ m'.size
  size_le : m.size ≤ m'.size
  le_limit : m'.size ≤ m.limit
  words : 32 ∣ m'.size ∨ m'.size = m.limit
  kept (i : Nat) (h : i < m.size) : m'.data[i]? = m.data[i]?
  zeros (i : Nat) (h : m.size ≤ i) (h' : i < m'.size) : m'.data[i]? = some 0

section Grow

variable {m : Memory} {stop : Nat}

theorem extends_self (hm : m.Shaped) (h : stop ≤ m.size) : m.Extends stop m where
  room := h
  size_le := Nat.le_refl _
  le_limit := hm.le_limit
  words := hm.words
  kept _ _ := rfl
  zeros _ h h' := absurd h' (Nat.not_lt.2 h)

theorem extends_grow (hm : m.Shaped) (hl : stop ≤ m.limit) (hs : stop ≤ addressSpace - 32) :
    m.Extends stop (m.grow stop) := by
  by_cases h : m.size < stop
  · have hgrown := hm.grow stop
    have hsize := m.size_grow stop
    have haligned := le_wordAligned hs
    rw [if_pos h] at hsize
    have hdata : (m.grow stop).data =
        m.data ++ Array.replicate (min (wordAligned stop) m.limit - m.data.size) 0 := by
      rw [grow_of_lt h]
      exact if_neg (by unfold size at h; omega)
    refine ⟨by omega, by omega, m.limit_grow stop ▸ hgrown.le_limit,
      m.limit_grow stop ▸ hgrown.words, fun i hi => ?_, fun i hi hi' => ?_⟩
    · rw [hdata, Array.getElem?_append_left hi]
    · have hi' : i - m.data.size < min (wordAligned stop) m.limit - m.data.size := by
        unfold size at hi hsize hi'
        omega
      rw [hdata, Array.getElem?_append_right hi, Array.getElem?_replicate, if_pos hi']
  · have hle := Nat.le_of_not_lt h
    rw [grow_of_le hle]
    exact extends_self hm hle

/-- Growing into the last word of the address space leaves nothing. -/
theorem grow_eq_empty (h : m.size < stop) (hs : addressSpace - 32 < stop)
    (hlt : stop < addressSpace) : m.grow stop = empty m.limit := by
  rw [grow_of_lt h, wordAligned_eq_zero hs hlt, Nat.zero_min, resize, if_pos (Nat.zero_le _)]
  exact congrArg (Memory.mk · m.limit) (Array.eq_empty_of_size_eq_zero (by simp))

theorem expand_of_fits {offset size : Nat} (hz : size ≠ 0)
    (hr : refusal m.limit offset size = none) :
    expand offset size m = .ok () (m.grow (offset + size)) := by
  rw [expand, if_neg hz, hr]

end Grow

/-- Where an expansion succeeds, it adds zeros up to a whole word or the limit, unless the memory
has to grow into the last word of the address space. There it leaves no bytes. -/
theorem expand_extends_iff {limit offset size : Nat} {m m' : Memory} (hm : Reached limit m)
    (hz : 0 < size) (h : expand offset size m = .ok () m') :
    (m.Extends (offset + size) m' ↔
      offset + size ≤ m.size ∨ offset + size ≤ addressSpace - 32) ∧
    (¬ m.Extends (offset + size) m' → m' = .empty limit) := by
  obtain ⟨rfl, hshaped⟩ := hm.shaped
  have hw := m.expand_worked offset size
  rw [h] at hw
  cases hw with
  | empty hempty => exact absurd hempty (Nat.pos_iff_ne_zero.1 hz)
  | done _ hr =>
    obtain ⟨hspace, hl⟩ := (refusal_eq_none_iff _ _ _).1 hr
    by_cases hok : offset + size ≤ m.size ∨ offset + size ≤ addressSpace - 32
    · have hext : m.Extends (offset + size) (m.grow (offset + size)) := by
        rcases hok with hle | hle
        · rw [grow_of_le hle]
          exact extends_self hshaped hle
        · exact extends_grow hshaped hl hle
      exact ⟨iff_of_true hext hok, fun hn => absurd hext hn⟩
    · obtain ⟨hlt, hlast⟩ := not_or.1 hok
      have hempty := grow_eq_empty (Nat.lt_of_not_le hlt) (Nat.lt_of_not_le hlast) hspace
      refine ⟨iff_of_false (fun hext => ?_) hok, fun _ => hempty⟩
      have hroom := hext.room
      rw [hempty] at hroom
      exact absurd hroom (by show ¬ offset + size ≤ 0; omega)

def belowForty : Memory := (Op.setByte 5 1).perform.final (.empty 40)

/-- The second word is cut at the limit. -/
theorem belowForty_extends :
    Reached 40 belowForty ∧ expand 33 1 belowForty = .ok () (belowForty.grow 34) ∧
      belowForty.Extends 34 (belowForty.grow 34) ∧ (belowForty.grow 34).size = 40 := by
  have hm : Reached 40 belowForty := .perform .empty (.setByte 5 1)
  have hok : expand 33 1 belowForty = .ok () (belowForty.grow 34) :=
    expand_of_fits Nat.one_ne_zero (by decide +kernel)
  have hext := (expand_extends_iff hm Nat.zero_lt_one hok).1.2 (.inr (by decide))
  exact ⟨hm, hok, hext, by decide +kernel⟩

def belowEnd : Memory := (Op.setByte 0 1).perform.final (.empty (addressSpace - 1))

/-- Making room for the last byte but one succeeds and leaves no bytes, not even the one written. -/
theorem belowEnd_emptied :
    Reached (addressSpace - 1) belowEnd ∧ belowEnd.size = 32 ∧
      expand (addressSpace - 2) 1 belowEnd = .ok () (.empty (addressSpace - 1)) ∧
      ¬ belowEnd.Extends (addressSpace - 2 + 1) (.empty (addressSpace - 1)) := by
  have hempty : belowEnd.grow (addressSpace - 2 + 1) = .empty (addressSpace - 1) :=
    grow_eq_empty (by decide +kernel) (by decide) (by decide)
  refine ⟨.perform .empty (.setByte 0 1), by decide +kernel, ?_, fun h => ?_⟩
  · rw [← hempty]
    exact expand_of_fits Nat.one_ne_zero (by decide +kernel)
  · exact absurd h.room (by decide +kernel)

end SpeculativeEvm.Memory
