import SpeculativeEvm.Proofs.Nesting.Respected

/-! Which entries of the tables a frame fills and clears. Payloads and created addresses are kept by
level. A frame records the output it hands back at its own level and changes nothing else there or
above; what its calls and creations fill and clear lies beneath. -/

namespace SpeculativeEvm

namespace Speculation

theorem payloads_handBack (s : Speculation) (output : Bytes) (level : Nat) :
    (s.handBack output).payloads level =
      if s.level = level ∧ output.size ≠ 0 ∧ output ∉ s.payloads level then
        s.payloads level ++ [output]
      else s.payloads level := by
  unfold handBack
  by_cases hz : output.size ≠ 0
  · rw [if_pos hz]
    by_cases hm : output ∈ s.payloads s.level
    · rw [addPayload_of_mem hm, if_neg]
      rintro ⟨rfl, -, hn⟩
      exact hn hm
    · rw [payloads_addPayload_of_notMem hm]
      by_cases hl : s.level = level
      · subst hl
        rw [if_pos rfl, if_pos ⟨rfl, hz, hm⟩]
      · rw [if_neg hl, if_neg fun h => hl h.1]
  · rw [if_neg hz, if_neg fun h => hz h.2.1]

theorem created?_setCreated (s : Speculation) (level other : Nat) (a : Address) :
    (s.setCreated level a).created? other = if level = other then some a else s.created? other := by
  by_cases h : level = other <;>
    simp [setCreated, created?, Std.ExtTreeMap.getElem?_insert, h]

/-- No entry above the level has changed, and at it at most the payloads have. -/
structure NotAbove (s t : Speculation) : Prop where
  level : t.level = s.level
  payloads {k : Nat} (h : k < s.level) : t.payloads k = s.payloads k
  created {k : Nat} (h : k ≤ s.level) : t.created? k = s.created? k

structure Beneath (s t : Speculation) : Prop extends NotAbove s t where
  own : t.payloads s.level = s.payloads s.level

variable {s t : Speculation}

instance : IsPreorder Speculation NotAbove where
  refl _ := ⟨rfl, fun _ => rfl, fun _ => rfl⟩
  trans _ _ _ h h' :=
    ⟨h'.level.trans h.level, fun hk => (h'.payloads (h.level ▸ hk)).trans (h.payloads hk),
      fun hk => (h'.created (h.level ▸ hk)).trans (h.created hk)⟩

instance : IsPreorder Speculation Beneath where
  refl s := ⟨refl_of NotAbove s, rfl⟩
  trans _ _ _ h h' :=
    ⟨trans_of NotAbove h.toNotAbove h'.toNotAbove, by rw [← h.own, ← h.level, h'.own]⟩

theorem NotAbove.of_eq (hl : t.level = s.level) (hr : t.returned = s.returned)
    (hc : t.created = s.created) : s.NotAbove t := by
  refine ⟨hl, fun _ => ?_, fun _ => ?_⟩
  · rw [Speculation.payloads, Speculation.payloads, hr]
  · rw [created?, created?, hc]

theorem Beneath.of_eq (hl : t.level = s.level) (hr : t.returned = s.returned)
    (hc : t.created = s.created) : s.Beneath t :=
  ⟨.of_eq hl hr hc, by rw [Speculation.payloads, Speculation.payloads, hr]⟩

theorem beneath_clearBelow (s : Speculation) : s.Beneath s.clearBelow where
  level := rfl
  payloads {k} hk := by
    rw [payloads_clearBelow, if_neg (by omega)]
  created {k} hk := by
    rw [created?_clearBelow, if_neg (by omega)]
  own := by
    rw [payloads_clearBelow, if_neg (by omega)]

theorem beneath_setCreated (s : Speculation) (a : Address) :
    s.Beneath (s.setCreated (s.level + 1) a) where
  level := rfl
  payloads _ := rfl
  created {k} hk := by
    rw [created?_setCreated, if_neg (by omega)]
  own := rfl

theorem notAbove_handBack (s : Speculation) (output : Bytes) : s.NotAbove (s.handBack output) := by
  obtain ⟨returned, he⟩ := s.handBack_eq output
  refine ⟨by rw [he], fun {k} hk => ?_, fun _ => by rw [he]; rfl⟩
  rw [payloads_handBack, if_neg]
  rintro ⟨hl, -, -⟩
  omega

/-- For the frame above, all that a frame changes lies beneath. -/
theorem NotAbove.ascend (h : s.descend.NotAbove t) : s.Beneath t.ascend where
  level := by
    show t.level - 1 = s.level
    rw [h.level, descend, Nat.add_sub_cancel]
  payloads hk := h.payloads (Nat.lt_succ_of_lt hk)
  created hk := h.created (Nat.le_succ_of_le hk)
  own := h.payloads (Nat.lt_succ_self _)

end Speculation

open Speculation

namespace Execute

variable {σ : Type} {setup : Setup} {inv : Invocation} {s t : Speculation} {i : Instruction}

theorem Effect.notAbove (h : Effect setup inv s i t) : s.NotAbove t := by
  cases h with
  | none => exact refl_of NotAbove s
  | clearBelow => exact s.beneath_clearBelow.toNotAbove
  | handBack _ output => exact s.notAbove_handBack output
  | _ => exact .of_eq rfl rfl rfl

theorem Effect.beneath (h : Effect setup inv s i t) (hi : i.givesBack = false) : s.Beneath t := by
  refine ⟨h.notAbove, ?_⟩
  cases h with
  | clearBelow => exact s.beneath_clearBelow.own
  | handBack hb =>
    rw [hi] at hb
    cases hb
  | _ => rfl

theorem Effect.aborted (h : Effect setup inv s i t) : t.outcome.aborted = s.outcome.aborted := by
  cases h with
  | handBack _ output =>
    obtain ⟨returned, he⟩ := s.handBack_eq output
    rw [he]
  | _ => rfl

end Execute

theorem Speculation.notAbove_respected (setup : Setup) : Respected setup NotAbove where
  effect he := he.notAbove
  abort _ := .of_eq rfl rfl rfl
  setCreated s a := (s.beneath_setCreated a).toNotAbove
  nested h := h.ascend.toNotAbove

end SpeculativeEvm
