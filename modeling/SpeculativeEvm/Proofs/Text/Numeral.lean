import SpeculativeEvm.Proofs.Text.Blank
import SpeculativeEvm.Proofs.Text.Hex
import SpeculativeEvm.Report
import SpeculativeEvm.Text.Numeral

/-! The texts that are read as words. Blanks at the ends aside these are the decimal numerals below
`2 ^ 256` and the hexadecimal ones of at most 64 digits, so that nothing is cut off: a longer number
is an error. A word is read back from each of its renderings. -/

namespace SpeculativeEvm

open Text (IsDigit Denotes Trimmed placedAfter)
open Hex (CodesDenote unmarked)

namespace Numeral

/-- The numerals of a word, without blanks at the ends. -/
inductive Spells : List Char → Word → Prop
  | decimal {cs : List Char} {w : Word} (digits : Denotes 10 cs w.toNat) : Spells cs w
  | marked {cs : List Char} {w : Word} (size : cs.length ≤ 64) (digits : Denotes 16 cs w.toNat) :
    Spells ('0' :: 'x' :: cs) w
  | markedTwice {cs : List Char} {w : Word} (size : cs.length ≤ 64)
    (digits : Denotes 16 cs w.toNat) : Spells ('0' :: 'x' :: '0' :: 'x' :: cs) w

section Read

variable {acc base n : Nat} {cs : List Char} {text : String} {w : Word}

/-- Digits are read one after the other as long as the number fits. -/
theorem readDecimal_eq_ok_iff (hacc : acc < 2 ^ 256) : readDecimal acc cs = .ok n ↔
    (∃ values, List.Forall₂ (IsDigit 10) cs values ∧ n = placedAfter 10 acc values) ∧
      n < 2 ^ 256 := by
  induction cs generalizing acc with
  | nil =>
    simp only [readDecimal, List.forall₂_nil_left_iff, exists_eq_left]
    constructor
    · rintro ⟨⟩
      exact ⟨rfl, hacc⟩
    · rintro ⟨rfl, -⟩
      rfl
  | cons c cs ih =>
    have hfits (next : Nat) : next ≤ (BitVec.allOnes 256).toNat ↔ next < 2 ^ 256 := by
      rw [BitVec.toNat_allOnes]
      omega
    simp only [readDecimal, List.forall₂_cons_left_iff, Text.isDigit_ten_iff, hfits]
    split
    · next hc =>
      split
      · next hnext =>
        rw [ih hnext]
        refine and_congr_left fun _ => ?_
        constructor
        · rintro ⟨values, hvalues, rfl⟩
          exact ⟨_, ⟨_, values, ⟨hc, rfl⟩, hvalues, rfl⟩, rfl⟩
        · rintro ⟨_, ⟨_, values, ⟨-, rfl⟩, hvalues, rfl⟩, rfl⟩
          exact ⟨values, hvalues, rfl⟩
      · next hnext =>
        -- what comes after a number that is too large makes it no smaller
        refine iff_of_false nofun ?_
        rintro ⟨⟨_, ⟨_, values, ⟨-, rfl⟩, -, rfl⟩, rfl⟩, hlt⟩
        exact hnext (Nat.lt_of_le_of_lt (Text.le_placedAfter (by decide) _ values) hlt)
    · next hc =>
      refine iff_of_false nofun ?_
      rintro ⟨⟨_, ⟨_, _, ⟨hdigit, -⟩, -⟩, -⟩, -⟩
      exact hc hdigit

theorem readDecimal_zero_eq_ok_iff :
    BitVec.ofNat 256 <$> readDecimal 0 cs = .ok w ↔ Denotes 10 cs w.toNat := by
  rw [Hex.map_eq_ok_iff, Text.denotes_iff_placedAfter]
  constructor
  · rintro ⟨n, hn, rfl⟩
    obtain ⟨hdenote, hlt⟩ := (readDecimal_eq_ok_iff (by decide)).1 hn
    rwa [BitVec.toNat_ofNat, Nat.mod_eq_of_lt hlt]
  · intro hdenote
    refine ⟨w.toNat, (readDecimal_eq_ok_iff (by decide)).2 ⟨hdenote, w.isLt⟩, ?_⟩
    rw [BitVec.ofNat_toNat, BitVec.setWidth_eq]

/-- Up to 32 digit pairs are read as the word they denote. -/
theorem ofBytes_decodePairs_eq_ok_iff {codes : List UInt8} (heven : codes.length % 2 = 0)
    (hfit : codes.length ≤ 64) :
    Word.ofBytes <$> (Hex.decodePairs #[] 0 codes).mapError WordError.hexDigit = .ok w ↔
      CodesDenote codes w.toNat := by
  simp only [Hex.map_eq_ok_iff, Hex.mapError_eq_ok_iff]
  constructor
  · rintro ⟨bytes, hbytes, rfl⟩
    obtain ⟨hsize, hdenote⟩ := (Hex.decodePairs_eq_ok_iff heven).1 hbytes
    have hlt : bytes.toNat < 2 ^ 256 :=
      calc
        bytes.toNat < 256 ^ bytes.size := bytes.toNat_lt
        _ ≤ 256 ^ 32 := Nat.pow_le_pow_right (by decide) (by omega)
    rwa [Word.ofBytes, BitVec.toNat_ofNat, Nat.mod_eq_of_lt hlt]
  · intro hdenote
    obtain ⟨bytes, hbytes, -, hnumber⟩ := hdenote.exists_bytes heven
    refine ⟨bytes, hbytes, ?_⟩
    rw [Word.ofBytes, hnumber, BitVec.ofNat_toNat, BitVec.setWidth_eq]

/-- Up to 64 digits are read as the word they denote, an odd number of them too. -/
theorem readHexWord_eq_ok_iff : readHexWord text = .ok w ↔
    text.toList.length ≤ 64 ∧ Denotes 16 text.toList w.toNat := by
  unfold readHexWord
  rw [Hex.codes_eq]
  dsimp only
  have hlength (h : Denotes 16 text.toList w.toNat) := Hex.length_codes h
  rw [← Hex.codesDenote_iff] at hlength ⊢
  generalize text.toList.flatMap String.utf8EncodeChar = codes at hlength ⊢
  split
  · next hlong =>
    refine iff_of_false nofun ?_
    rintro ⟨hshort, hdenote⟩
    rw [hlength hdenote] at hlong
    omega
  · next hshort =>
    have hread : Word.ofBytes <$> (Hex.decodePairs #[] 0
        (if codes.length % 2 = 1 then 48 :: codes else codes)).mapError WordError.hexDigit = .ok w ↔
        CodesDenote codes w.toNat := by
      split
      · rw [ofBytes_decodePairs_eq_ok_iff (by simp; omega) (by simp; omega),
          Hex.codesDenote_zero_cons]
      · exact ofBytes_decodePairs_eq_ok_iff (by omega) (by omega)
    rw [hread]
    constructor
    · intro hdenote
      have hsame := hlength hdenote
      exact ⟨by omega, hdenote⟩
    · exact And.right

theorem x_notMem_of_denotes (hbase : base ≤ 16) (h : Denotes base cs n) : 'x' ∉ cs := by
  intro hx
  obtain ⟨value, hdigit⟩ := Text.exists_denotes_iff.1 ⟨n, h⟩ 'x' hx
  exact Text.not_isDigit_x hbase hdigit

/-- Digits have no mark in front. -/
theorem unmarked_of_denotes (h : Denotes 16 cs n) : unmarked cs = cs := by
  refine if_neg fun hmark => x_notMem_of_denotes (Nat.le_refl 16) h ?_
  exact hmark.subset (by simp)

theorem readTrimmedWord_eq_ok_iff : readTrimmedWord text = .ok w ↔ Spells text.toList w := by
  unfold readTrimmedWord
  split
  · next rest hmark =>
    rw [readHexWord_eq_ok_iff, Hex.toList_withoutMark, String.toList_ofList, hmark]
    constructor
    · rintro ⟨hsize, hdenote⟩
      by_cases hagain : ['0', 'x'] <+: rest
      · obtain ⟨rest, rfl⟩ := hagain
        rw [List.cons_append, List.cons_append, List.nil_append,
          Hex.unmarked_marked] at hsize hdenote
        exact .markedTwice hsize hdenote
      · rw [unmarked, if_neg hagain] at hsize hdenote
        exact .marked hsize hdenote
    · intro hspells
      cases hspells with
      | decimal hdenote => exact absurd (by simp) (x_notMem_of_denotes (by decide) hdenote)
      | marked hsize hdenote =>
        rw [unmarked_of_denotes hdenote]
        exact ⟨hsize, hdenote⟩
      | markedTwice hsize hdenote =>
        rw [Hex.unmarked_marked]
        exact ⟨hsize, hdenote⟩
  · next hmark =>
    rw [readDecimal_zero_eq_ok_iff]
    constructor
    · exact .decimal
    · intro hspells
      generalize hcs : text.toList = cs at hspells
      cases hspells with
      | decimal hdenote => exact hdenote
      | marked => exact (hmark _ hcs).elim
      | markedTwice => exact (hmark _ hcs).elim

theorem readWord_eq_ok_iff : readWord text = .ok w ↔
    ∃ inner, Trimmed text.toList inner ∧ Spells inner w := by
  simp only [Text.trimmed_iff, exists_eq_left]
  rw [readWord, Hex.mapError_eq_ok_iff, readTrimmedWord_eq_ok_iff, Text.toList_trim]

theorem readWord_eq_error_iff : (∃ message, readWord text = .error message) ↔
    ∀ inner w, Trimmed text.toList inner → ¬ Spells inner w := by
  constructor
  · rintro ⟨message, hmessage⟩ inner w htrimmed hspells
    have hok := readWord_eq_ok_iff.2 ⟨inner, htrimmed, hspells⟩
    cases hmessage.symm.trans hok
  · intro hnone
    cases hread : readWord text with
    | error message => exact ⟨message, rfl⟩
    | ok w =>
      obtain ⟨inner, htrimmed, hspells⟩ := readWord_eq_ok_iff.1 hread
      exact (hnone inner w htrimmed hspells).elim

/-- Decimal digits spell their number only. -/
theorem Spells.toNat_eq (h : Spells cs w) (hdenote : Denotes 10 cs n) : w.toNat = n := by
  cases h with
  | decimal hdigits => exact hdigits.unique (by decide) hdenote
  | marked => exact absurd (by simp) (x_notMem_of_denotes (by decide) hdenote)
  | markedTwice => exact absurd (by simp) (x_notMem_of_denotes (by decide) hdenote)

end Read

section Render

variable {base n : Nat} {cs : List Char}

theorem not_blank_of_denotes (hbase : base ≤ 16) (h : Denotes base cs n) :
    ∀ c ∈ cs, Text.isBlank c = false := by
  intro c hc
  have hall : ∀ v : Fin 16, Text.isBlank v.val.digitChar = false ∧
      Text.isBlank v.val.digitChar.toUpper = false := by decide
  obtain ⟨value, hlt, rfl | rfl⟩ := Text.exists_denotes_iff.1 ⟨n, h⟩ c hc
  · exact (hall ⟨value, Nat.lt_of_lt_of_le hlt hbase⟩).1
  · exact (hall ⟨value, Nat.lt_of_lt_of_le hlt hbase⟩).2

theorem trimmed_self (h : ∀ c ∈ cs, Text.isBlank c = false) : Trimmed cs cs where
  between := ⟨[], [], by simp, nofun, nofun⟩
  head c hc := h c (List.mem_of_mem_head? hc)
  last c hc := h c (List.mem_of_mem_getLast? hc)

/-- Digits behind the mark are read as the word they denote. -/
theorem readWord_marked {w : Word} {digits : String} (hsize : digits.toList.length ≤ 64)
    (h : Denotes 16 digits.toList w.toNat) : readWord ("0x" ++ digits) = .ok w := by
  have hcs : ("0x" ++ digits).toList = '0' :: 'x' :: digits.toList := String.toList_append
  rw [readWord_eq_ok_iff, hcs]
  refine ⟨_, trimmed_self ?_, .marked hsize h⟩
  have hdigits := not_blank_of_denotes (Nat.le_refl 16) h
  simpa [show Text.isBlank '0' = false by decide, show Text.isBlank 'x' = false by decide]

theorem denotes_toString (n : Nat) : Denotes 10 (toString n).toList n := by
  rw [Nat.toString_eq_repr, Nat.toList_repr]
  exact Text.denotes_toDigits (by decide) n

theorem trimmed_toString (n : Nat) : Trimmed (toString n).toList (toString n).toList :=
  trimmed_self (not_blank_of_denotes (by decide) (denotes_toString n))

theorem readWord_toString (w : Word) : readWord (toString w.toNat) = .ok w := by
  rw [readWord_eq_ok_iff]
  exact ⟨_, trimmed_toString w.toNat, .decimal (denotes_toString w.toNat)⟩

theorem readWord_wordText (w : Word) : readWord (Report.wordText w) = .ok w := by
  have hlt : w.toNat < 256 ^ 32 := w.isLt
  have hnumber : w.toBytes.toNat = w.toNat := by
    rw [Word.toBytes, Bytes.toNat_ofNat, Nat.mod_eq_of_lt hlt]
  apply readWord_marked
  · rw [Hex.length_encode, Word.size_toBytes]
  · rw [← hnumber]
    exact Hex.denotes_encode w.toBytes

theorem readWord_toDigits (w : Word) :
    readWord ("0x" ++ String.ofList (Nat.toDigits 16 w.toNat)) = .ok w := by
  apply readWord_marked
  · rw [String.toList_ofList, Nat.length_toDigits_le_iff (by decide) (by decide)]
    exact w.isLt
  · rw [String.toList_ofList]
    exact Text.denotes_toDigits (by decide) w.toNat

end Render

/-- Words are read from exactly their numerals, and from each of their renderings. -/
theorem words_read_exactly :
    (∀ text w, readWord text = .ok w ↔ ∃ inner, Trimmed text.toList inner ∧ Spells inner w) ∧
    (∀ text, (∃ message, readWord text = .error message) ↔
      ∀ inner w, Trimmed text.toList inner → ¬ Spells inner w) ∧
    (∀ text inner n, Trimmed text.toList inner → Denotes 10 inner n → 2 ^ 256 ≤ n →
      ∃ message, readWord text = .error message) ∧
    ∀ w : Word, readWord (toString w.toNat) = .ok w ∧ readWord (Report.wordText w) = .ok w ∧
      readWord ("0x" ++ String.ofList (Nat.toDigits 16 w.toNat)) = .ok w := by
  refine ⟨fun text w => readWord_eq_ok_iff, fun text => readWord_eq_error_iff, ?_, ?_⟩
  · intro text inner n htrimmed hdenote hlarge
    rw [readWord_eq_error_iff]
    intro inner' w htrimmed' hspells
    rw [Text.trimmed_iff] at htrimmed htrimmed'
    subst htrimmed htrimmed'
    have hsame := hspells.toNat_eq hdenote
    have hlt := w.isLt
    omega
  · intro w
    exact ⟨readWord_toString w, readWord_wordText w, readWord_toDigits w⟩

theorem twoPow256_refused : ∃ message, readWord (toString (2 ^ 256)) = .error message :=
  words_read_exactly.2.2.1 _ _ _ (trimmed_toString _) (denotes_toString _) (Nat.le_refl _)

end Numeral

end SpeculativeEvm
