import Mathlib.Data.List.Forall2
import Mathlib.Data.Nat.Digits.Defs
import SpeculativeEvm.Text.Hex

/-! Numbers written in digits, the most significant one first. Zeros in front do not change the
number, no digits denote zero, and letters are digits in either case. A text denotes at most one
number, and the number of its digits bounds it. -/

namespace SpeculativeEvm.Text

/-- What is so for each of the first 128 characters is so for every character that low. -/
theorem of_ascii {P : Char → Prop} (h : ∀ n : Fin 128, P (Char.ofNat n)) {c : Char}
    (hc : c.toNat < 128) : P c := by
  have hchar := h ⟨c.toNat, hc⟩
  rwa [Char.ofNat_toNat] at hchar

/-- The character is the digit of a value in a base up to 16. -/
def IsDigit (base : Nat) (c : Char) (value : Nat) : Prop :=
  value < base ∧ (c = value.digitChar ∨ c = value.digitChar.toUpper)

instance (base : Nat) (c : Char) (value : Nat) : Decidable (IsDigit base c value) :=
  inferInstanceAs (Decidable (_ ∧ _))

/-- The characters are the digits of a number. -/
def Denotes (base : Nat) (cs : List Char) (n : Nat) : Prop :=
  ∃ values, List.Forall₂ (IsDigit base) cs values ∧ n = Nat.ofDigits base values.reverse

/-- The number whose digits are those of `n` and then these. -/
def placedAfter (base n : Nat) (values : List Nat) : Nat :=
  values.foldl (fun n value => n * base + value) n

section Placed

variable {base n : Nat} {values : List Nat}

theorem ofDigits_reverse (base : Nat) (values : List Nat) :
    Nat.ofDigits base values.reverse = placedAfter base 0 values := by
  rw [Nat.ofDigits_eq_foldr, List.foldr_reverse, placedAfter]
  congr 1
  funext n value
  rw [Nat.cast_id, Nat.add_comm, Nat.mul_comm]

theorem le_placedAfter (hbase : 0 < base) (n : Nat) (values : List Nat) :
    n ≤ placedAfter base n values := by
  induction values generalizing n with
  | nil => exact Nat.le_refl n
  | cons value values ih =>
    calc
      n ≤ n * base := Nat.le_mul_of_pos_right n hbase
      _ ≤ n * base + value := Nat.le_add_right ..
      _ ≤ placedAfter base n (value :: values) := ih _

theorem placedAfter_lt (hvalues : ∀ value ∈ values, value < base) (hbase : 1 < base) :
    placedAfter base 0 values < base ^ values.length := by
  rw [← ofDigits_reverse, ← List.length_reverse]
  exact Nat.ofDigits_lt_base_pow_length hbase fun value h => hvalues value (List.mem_reverse.1 h)

end Placed

section Digits

variable {base n m value other : Nat} {c : Char} {cs : List Char} {values : List Nat}

theorem IsDigit.unique (hbase : base ≤ 16) (h : IsDigit base c value)
    (h' : IsDigit base c other) : value = other := by
  have hall : ∀ v w : Fin 16,
      (v.val.digitChar = w.val.digitChar ∨ v.val.digitChar = w.val.digitChar.toUpper → v = w) ∧
      (v.val.digitChar.toUpper = w.val.digitChar ∨
        v.val.digitChar.toUpper = w.val.digitChar.toUpper → v = w) := by decide +kernel
  obtain ⟨hvalue, hc⟩ := h
  obtain ⟨hother, hc'⟩ := h'
  have hsame := hall ⟨value, Nat.lt_of_lt_of_le hvalue hbase⟩
    ⟨other, Nat.lt_of_lt_of_le hother hbase⟩
  rcases hc with rfl | rfl
  · exact congrArg Fin.val (hsame.1 hc')
  · exact congrArg Fin.val (hsame.2 hc')

theorem value_lt (h : List.Forall₂ (IsDigit base) cs values) : ∀ value ∈ values, value < base := by
  induction h with
  | nil => nofun
  | cons hc _ ih => exact List.forall_mem_cons.2 ⟨hc.1, ih⟩

theorem isDigit_digitChar (h : value < base) : IsDigit base value.digitChar value :=
  ⟨h, .inl rfl⟩

theorem isDigit_ten_iff : IsDigit 10 c value ↔ c.isDigit = true ∧ value = c.toNat - '0'.toNat := by
  constructor
  · rintro ⟨hlt, hc⟩
    have hall : ∀ v : Fin 10, v.val.digitChar.toUpper = v.val.digitChar ∧
        v.val.digitChar.isDigit = true ∧ v.val = v.val.digitChar.toNat - '0'.toNat := by decide
    obtain ⟨hupper, hdigit⟩ := hall ⟨value, hlt⟩
    rcases hc with rfl | rfl
    · exact hdigit
    · exact hupper.symm ▸ hdigit
  · rintro ⟨hc, rfl⟩
    have hlow : c.toNat < 128 := Nat.lt_of_le_of_lt (Char.isDigit_iff_toNat.1 hc).2 (by decide)
    revert hc
    exact of_ascii (P := fun c => c.isDigit = true → IsDigit 10 c (c.toNat - '0'.toNat))
      (by decide +kernel) hlow

theorem not_isDigit_x (hbase : base ≤ 16) : ¬ IsDigit base 'x' value := by
  rintro ⟨hlt, hc⟩
  have hall : ∀ v : Fin 16, ¬ ('x' = v.val.digitChar ∨ 'x' = v.val.digitChar.toUpper) := by decide
  exact hall ⟨value, Nat.lt_of_lt_of_le hlt hbase⟩ hc

theorem denotes_iff_placedAfter : Denotes base cs n ↔
    ∃ values, List.Forall₂ (IsDigit base) cs values ∧ n = placedAfter base 0 values := by
  simp only [Denotes, ofDigits_reverse]

theorem denotes_nil (base : Nat) : Denotes base [] 0 := ⟨[], .nil, rfl⟩

theorem Denotes.concat (h : Denotes base cs n) (hc : IsDigit base c value) :
    Denotes base (cs ++ [c]) (n * base + value) := by
  obtain ⟨values, hvalues, rfl⟩ := denotes_iff_placedAfter.1 h
  refine denotes_iff_placedAfter.2 ⟨values ++ [value], ?_, ?_⟩
  · exact List.rel_append hvalues (.cons hc .nil)
  · simp [placedAfter]

theorem Denotes.unique (hbase : base ≤ 16) (h : Denotes base cs n) (h' : Denotes base cs m) :
    n = m := by
  obtain ⟨values, hvalues, rfl⟩ := h
  obtain ⟨values', hvalues', rfl⟩ := h'
  have hunique : Relator.RightUnique (IsDigit base) := fun _ _ _ h h' => h.unique hbase h'
  rw [hunique.forall₂ hvalues hvalues']

theorem Denotes.lt (hbase : 1 < base) (h : Denotes base cs n) : n < base ^ cs.length := by
  obtain ⟨values, hvalues, rfl⟩ := denotes_iff_placedAfter.1 h
  rw [hvalues.length_eq]
  exact placedAfter_lt (value_lt hvalues) hbase

/-- A text denotes a number if it has digits only. -/
theorem exists_denotes_iff :
    (∃ n, Denotes base cs n) ↔ ∀ c ∈ cs, ∃ value, IsDigit base c value := by
  constructor
  · rintro ⟨n, values, hvalues, -⟩
    induction hvalues with
    | nil => nofun
    | cons hc _ ih => exact List.forall_mem_cons.2 ⟨⟨_, hc⟩, ih⟩
  · intro h
    have hvalues : ∃ values, List.Forall₂ (IsDigit base) cs values := by
      induction cs with
      | nil => exact ⟨[], .nil⟩
      | cons c cs ih =>
        obtain ⟨⟨value, hc⟩, hcs⟩ := List.forall_mem_cons.1 h
        obtain ⟨values, hvalues⟩ := ih hcs
        exact ⟨value :: values, .cons hc hvalues⟩
    obtain ⟨values, hvalues⟩ := hvalues
    exact ⟨_, values, hvalues, rfl⟩

theorem denotes_toDigits (hbase : 1 < base) (n : Nat) : Denotes base (Nat.toDigits base n) n := by
  induction n using Nat.strong_induction_on with
  | _ n ih =>
    rw [Nat.toDigits_eq_if hbase]
    split
    · next hlt => simpa using (denotes_nil base).concat (isDigit_digitChar hlt)
    · next hle =>
      have hn : n / base * base + n % base = n := Nat.div_add_mod' n base
      have hlt : n / base < n := Nat.div_lt_self (by omega) hbase
      have hmod := isDigit_digitChar (Nat.mod_lt n (Nat.zero_lt_of_lt hbase))
      simpa only [hn] using (ih _ hlt).concat hmod

end Digits

end SpeculativeEvm.Text
