import SpeculativeEvm.Proofs.Text.Blank
import SpeculativeEvm.Proofs.Text.Hex
import SpeculativeEvm.Text.Numeral

/-! The hexadecimal forms of addresses and hashes. Reading takes the texts of the right number of
digits, with or without the mark, and tells apart those that are no digit pairs from those of
another length; it takes back what is written; and the texts are ordered like the bytes and like the
words, so sorting the one sorts the others. Byte strings of any length are read the same way, blanks
at the ends aside. -/

namespace SpeculativeEvm

open Text (Denotes Trimmed)

namespace Hex

/-- Reading and writing values of `width` bytes, and the orders of the values and of their texts. A
character of several bytes is no digit, so lengths may be counted in characters. -/
structure Form {α : Type} [Ord α] (width : Nat) (bytes : α → Bytes) (word : α → Word)
    (read : String → Except WidthError α) (write : α → String) : Prop where
  read_eq_ok : ∀ text a, read text = .ok a ↔
    (unmarked text.toList).length = 2 * width ∧ Denotes 16 (unmarked text.toList) (bytes a).toNat
  read_isOk : ∀ text, (∃ a, read text = .ok a) ↔
    (unmarked text.toList).length = 2 * width ∧ AllDigits (unmarked text.toList)
  read_invalidHex : ∀ text, (∃ cause, read text = .error (.invalidHex cause)) ↔
    (unmarked text.toList).length % 2 = 1 ∨ ¬ AllDigits (unmarked text.toList)
  read_invalidLength : ∀ text size, read text = .error (.invalidLength size) ↔
    size ≠ width ∧ (unmarked text.toList).length = 2 * size ∧ AllDigits (unmarked text.toList)
  read_write : ∀ a, read (write a) = .ok a
  bytes_lt : ∀ a b, (bytes a).toList < (bytes b).toList ↔ write a < write b
  word_lt : ∀ a b, word a < word b ↔ write a < write b
  compare_lt : ∀ a b, compare a b = .lt ↔ write a < write b
  sort : ∀ values : List α, (values.map write).mergeSort =
    (values.mergeSort fun a b => (compare a b).isLE).map write

section ReadExact

variable {width size : Nat} {text : String} {bytes : Bytes} {cause : Error}

theorem readExact_of_ok (h : decode (withoutMark text) = .ok bytes) :
    readExact width text = checkWidth width bytes := by
  rw [readExact, h]
  rfl

theorem readExact_of_error (h : decode (withoutMark text) = .error cause) :
    readExact width text = .error (.invalidHex cause) := by
  rw [readExact, h]
  rfl

theorem decode_withoutMark_iff : decode (withoutMark text) = .ok bytes ↔
    (unmarked text.toList).length = 2 * bytes.size ∧
      Denotes 16 (unmarked text.toList) bytes.toNat := by
  rw [decode_eq_ok_iff, toList_withoutMark]

theorem decode_withoutMark_isOk_iff : (∃ bytes, decode (withoutMark text) = .ok bytes) ↔
    (unmarked text.toList).length % 2 = 0 ∧ AllDigits (unmarked text.toList) := by
  rw [decode_isOk_iff, toList_withoutMark]

theorem readExact_eq_ok_iff : readExact width text = .ok bytes ↔
    decode (withoutMark text) = .ok bytes ∧ bytes.size = width := by
  cases h : decode (withoutMark text) with
  | error cause => simp [readExact_of_error h]
  | ok bytes' =>
    rw [readExact_of_ok h, checkWidth]
    split
    · next hsize =>
      refine ⟨?_, fun hok => congrArg Except.ok (Except.ok.inj hok.1)⟩
      rintro ⟨⟩
      exact ⟨rfl, hsize⟩
    · next hsize =>
      refine iff_of_false nofun ?_
      rintro ⟨⟨⟩, hwidth⟩
      exact hsize hwidth

theorem readExact_invalidHex_iff : (∃ cause, readExact width text = .error (.invalidHex cause)) ↔
    ¬ ∃ bytes, decode (withoutMark text) = .ok bytes := by
  cases h : decode (withoutMark text) with
  | error cause => simp [readExact_of_error h]
  | ok bytes =>
    rw [readExact_of_ok h, checkWidth]
    split <;> simp

theorem readExact_invalidLength_iff : readExact width text = .error (.invalidLength size) ↔
    ∃ bytes, decode (withoutMark text) = .ok bytes ∧ bytes.size = size ∧ size ≠ width := by
  cases h : decode (withoutMark text) with
  | error cause => simp [readExact_of_error h]
  | ok bytes =>
    rw [readExact_of_ok h, checkWidth]
    split
    · next hsize =>
      refine iff_of_false nofun ?_
      rintro ⟨_, ⟨⟩, rfl, hne⟩
      exact hne hsize
    · next hsize =>
      constructor
      · rintro ⟨⟩
        exact ⟨bytes, rfl, rfl, hsize⟩
      · rintro ⟨_, ⟨⟩, rfl, -⟩
        rfl

end ReadExact

structure FixedWidth {α : Type} [Ord α] (width : Nat) (ofBytes : Bytes → α) (bytes : α → Bytes)
    (word : α → Word) : Prop where
  size_bytes : ∀ a, (bytes a).size = width
  ofBytes_bytes : ∀ a, ofBytes (bytes a) = a
  bytes_ofBytes : ∀ bs : Bytes, bs.size = width → bytes (ofBytes bs) = bs
  compare_bytes : ∀ a b, compare a b = compare (bytes a).toNat (bytes b).toNat
  toNat_word : ∀ a, (word a).toNat = (bytes a).toNat

/-- The values that hold one bit vector. -/
theorem FixedWidth.of_bits {α : Type} [Ord α] {width : Nat} {make : BitVec (8 * width) → α}
    {bits : α → BitVec (8 * width)} {word : α → Word} (hmake : ∀ a, make (bits a) = a)
    (hbits : ∀ v, bits (make v) = v) (hcompare : ∀ a b, compare a b = compareOn bits a b)
    (hword : ∀ a, (word a).toNat = (bits a).toNat) :
    FixedWidth width (fun bs => make (BitVec.ofNat (8 * width) bs.toNat))
      (fun a => Bytes.ofNat width (bits a).toNat) word := by
  have hpow : 2 ^ (8 * width) = 256 ^ width := by rw [Nat.pow_mul]
  have hnumber (a : α) : (Bytes.ofNat width (bits a).toNat).toNat = (bits a).toNat := by
    rw [Bytes.toNat_ofNat, ← hpow, Nat.mod_eq_of_lt (bits a).isLt]
  constructor
  · intro a
    exact Bytes.size_ofNat width _
  · intro a
    rw [hnumber, BitVec.ofNat_toNat, BitVec.setWidth_eq, hmake]
  · intro bs hsize
    have hlt := bs.toNat_lt
    rw [hsize, ← hpow] at hlt
    rw [hbits, BitVec.toNat_ofNat, Nat.mod_eq_of_lt hlt, ← hsize, Bytes.ofNat_toNat]
  · intro a b
    rw [hcompare, hnumber, hnumber, compareOn]
    show compareOfLessAndEq (bits a) (bits b) = compareOfLessAndEq (bits a).toNat (bits b).toNat
    simp only [compareOfLessAndEq, BitVec.lt_def, ← BitVec.toNat_inj]
  · intro a
    rw [hword, hnumber]

section FixedWidth

variable {α : Type} [Ord α] {width : Nat} {ofBytes : Bytes → α} {bytes : α → Bytes}
  {word : α → Word}

theorem FixedWidth.read_eq_ok_iff (hα : FixedWidth width ofBytes bytes word) {text : String}
    {a : α} : ofBytes <$> readExact width text = .ok a ↔ readExact width text = .ok (bytes a) := by
  rw [map_eq_ok_iff]
  constructor
  · rintro ⟨bs, hbs, rfl⟩
    rwa [hα.bytes_ofBytes bs (readExact_eq_ok_iff.1 hbs).2]
  · intro h
    exact ⟨bytes a, h, hα.ofBytes_bytes a⟩

theorem FixedWidth.write_lt_iff (hα : FixedWidth width ofBytes bytes word) (a b : α) :
    marked (bytes a) < marked (bytes b) ↔ (bytes a).toNat < (bytes b).toNat :=
  marked_lt_marked_iff ((hα.size_bytes a).trans (hα.size_bytes b).symm)

theorem FixedWidth.form (hα : FixedWidth width ofBytes bytes word) :
    Form width bytes word (fun text => ofBytes <$> readExact width text)
      fun a => marked (bytes a) where
  read_eq_ok text a := by
    rw [hα.read_eq_ok_iff, readExact_eq_ok_iff, decode_withoutMark_iff, hα.size_bytes]
    simp
  read_isOk text := by
    simp only [map_eq_ok_iff, readExact_eq_ok_iff]
    constructor
    · rintro ⟨_, bs, ⟨hbs, rfl⟩, -⟩
      exact ⟨(decode_withoutMark_iff.1 hbs).1, (decode_withoutMark_isOk_iff.1 ⟨bs, hbs⟩).2⟩
    · rintro ⟨hlength, hdigits⟩
      obtain ⟨bs, hbs⟩ := decode_withoutMark_isOk_iff.2 ⟨by omega, hdigits⟩
      have hsize := (decode_withoutMark_iff.1 hbs).1
      exact ⟨ofBytes bs, bs, ⟨hbs, by omega⟩, rfl⟩
  read_invalidHex text := by
    simp only [map_eq_error_iff]
    rw [readExact_invalidHex_iff, decode_withoutMark_isOk_iff, not_and_or,
      Nat.mod_two_not_eq_zero]
  read_invalidLength text size := by
    rw [map_eq_error_iff, readExact_invalidLength_iff]
    constructor
    · rintro ⟨bs, hbs, rfl, hne⟩
      exact ⟨hne, (decode_withoutMark_iff.1 hbs).1, (decode_withoutMark_isOk_iff.1 ⟨bs, hbs⟩).2⟩
    · rintro ⟨hne, hlength, hdigits⟩
      obtain ⟨bs, hbs⟩ := decode_withoutMark_isOk_iff.2 ⟨by omega, hdigits⟩
      have hsize := (decode_withoutMark_iff.1 hbs).1
      exact ⟨bs, hbs, by omega, hne⟩
  read_write a := by
    rw [hα.read_eq_ok_iff, readExact_eq_ok_iff]
    rw [withoutMark_marked, decode_encode]
    exact ⟨rfl, hα.size_bytes a⟩
  bytes_lt a b := by
    rw [hα.write_lt_iff, Bytes.toList_lt_iff ((hα.size_bytes a).trans (hα.size_bytes b).symm)]
  word_lt a b := by
    rw [hα.write_lt_iff, BitVec.lt_def, hα.toNat_word, hα.toNat_word]
  compare_lt a b := by
    rw [hα.write_lt_iff, hα.compare_bytes, Nat.compare_eq_lt]
  sort values := by
    refine (List.map_mergeSort fun a _ b _ => ?_).symm
    rw [hα.compare_bytes, Bool.eq_iff_iff, Nat.isLE_compare, decide_eq_true_iff,
      ← String.not_lt, hα.write_lt_iff, Nat.not_lt]

end FixedWidth

end Hex

theorem Address.fixedWidth : Hex.FixedWidth Address.width ofBytes bytes toWord :=
  .of_bits (fun _ => rfl) (fun _ => rfl) (fun _ _ => rfl) fun a =>
    BitVec.toNat_setWidth_of_le (by decide)

theorem Hash.fixedWidth : Hex.FixedWidth Hash.width ofBytes bytes toWord :=
  .of_bits (fun _ => rfl) (fun _ => rfl) (fun _ _ => rfl) fun _ => rfl

/-- Addresses, hashes and byte strings are read from exactly their hexadecimal forms, and the forms
of addresses and of hashes are ordered like these. -/
theorem Hex.forms_exact_and_ordered :
    Form 20 Address.bytes Address.toWord Address.ofHex Address.hex ∧
    Form 32 Hash.bytes Hash.toWord Hash.ofHex Hash.hex ∧
    (∀ text bytes, Numeral.readBytes text = .ok bytes ↔ ∃ inner, Trimmed text.toList inner ∧
      (unmarked inner).length = 2 * bytes.size ∧ Denotes 16 (unmarked inner) bytes.toNat) ∧
    ∀ text, (∃ bytes, Numeral.readBytes text = .ok bytes) ↔ ∃ inner, Trimmed text.toList inner ∧
      (unmarked inner).length % 2 = 0 ∧ AllDigits (unmarked inner) := by
  refine ⟨Address.fixedWidth.form, Hash.fixedWidth.form, ?_, ?_⟩
  · intro text bytes
    simp only [Text.trimmed_iff, exists_eq_left]
    rw [Numeral.readBytes, mapError_eq_ok_iff, decode_withoutMark_iff, Text.toList_trim]
  · intro text
    simp only [Text.trimmed_iff, exists_eq_left, Numeral.readBytes, mapError_eq_ok_iff]
    rw [decode_withoutMark_isOk_iff, Text.toList_trim]

end SpeculativeEvm
