import Mathlib.Data.List.Induction
import SpeculativeEvm.Proofs.Bytes
import SpeculativeEvm.Proofs.Text.Digits

/-! Hexadecimal text, in both directions. A text is read as bytes exactly if it is an even number of
digits, and the bytes are then as many as the pairs and denote the same number; what is written is
such a text. Reading goes by the bytes of the text's UTF-8 form, where a character beyond ASCII is
none but bad ones. Of texts of one length the lower is that of the lower bytes. -/

namespace SpeculativeEvm

open Text (IsDigit Denotes placedAfter)

namespace Hex

section Except

variable {α β ε ε' : Type} {x : Except ε α}

theorem map_eq_ok_iff {f : α → β} {b : β} : f <$> x = .ok b ↔ ∃ a, x = .ok a ∧ f a = b := by
  cases x <;> simp [Functor.map, Except.map]

theorem map_eq_error_iff {f : α → β} {e : ε} : f <$> x = .error e ↔ x = .error e := by
  cases x <;> simp [Functor.map, Except.map]

theorem mapError_eq_ok_iff {f : ε → ε'} {a : α} : x.mapError f = .ok a ↔ x = .ok a := by
  cases x <;> simp [Except.mapError]

end Except

def IsDigitCode (b : UInt8) (value : Nat) : Prop :=
  value < 16 ∧ digitValue b = some (UInt8.ofNat value)

instance (b : UInt8) (value : Nat) : Decidable (IsDigitCode b value) :=
  inferInstanceAs (Decidable (_ ∧ _))

def AllDigits (cs : List Char) : Prop := ∀ c ∈ cs, ∃ value, IsDigit 16 c value

section Codes

variable {b : UInt8} {c : Char} {cs : List Char} {value : Nat} {values : List Nat}

theorem isDigitCode_of_digitValue {v : UInt8} (h : digitValue b = some v) :
    IsDigitCode b v.toNat := by
  have hlt : ∀ v ∈ digitValue b, v.toNat < 16 :=
    Bytes.of_fin (P := fun b => ∀ v ∈ digitValue b, v.toNat < 16) (by decide +kernel) b
  exact ⟨hlt v h, by rw [h, UInt8.ofNat_toNat]⟩

theorem digitValue_of_not_ascii : 128 ≤ b.toNat → digitValue b = none :=
  Bytes.of_fin (P := fun b => 128 ≤ b.toNat → digitValue b = none) (by decide +kernel) b

theorem isDigit_iff_code (h : c.toNat < 128) :
    IsDigit 16 c value ↔ IsDigitCode (UInt8.ofNat c.toNat) value := by
  have hall : ∀ v : Fin 16, IsDigit 16 c v ↔ IsDigitCode (UInt8.ofNat c.toNat) v :=
    Text.of_ascii (P := fun c => ∀ v : Fin 16,
      IsDigit 16 c v ↔ IsDigitCode (UInt8.ofNat c.toNat) v) (by decide +kernel) h
  by_cases hv : value < 16
  · exact hall ⟨value, hv⟩
  · exact iff_of_false (fun hc => hv hc.1) fun hc => hv hc.1

theorem ascii_of_isDigit (h : IsDigit 16 c value) : c.toNat < 128 := by
  have hall : ∀ v : Fin 16, v.val.digitChar.toNat < 128 ∧ v.val.digitChar.toUpper.toNat < 128 := by
    decide
  obtain ⟨hlt, rfl | rfl⟩ := h
  · exact (hall ⟨value, hlt⟩).1
  · exact (hall ⟨value, hlt⟩).2

theorem utf8_of_ascii (h : c.toNat < 128) :
    String.utf8EncodeChar c = [UInt8.ofNat c.toNat] :=
  if_pos (Nat.le_of_lt_succ h)

/-- The first byte of a character beyond ASCII is none of ASCII. -/
theorem utf8_of_not_ascii (h : ¬ c.toNat < 128) :
    ∃ b rest, String.utf8EncodeChar c = b :: rest ∧ 128 ≤ b.toNat := by
  have hv : ¬ c.val.toNat ≤ 127 := fun hle => h (Nat.lt_succ_of_le hle)
  unfold String.utf8EncodeChar
  simp only [if_neg hv]
  split
  · exact ⟨_, _, rfl, by simp; omega⟩
  · split
    · exact ⟨_, _, rfl, by simp; omega⟩
    · exact ⟨_, _, rfl, by simp; omega⟩

/-- The digits of a text are those of its UTF-8 form. -/
theorem forall₂_code_iff : List.Forall₂ IsDigitCode (cs.flatMap String.utf8EncodeChar) values ↔
    List.Forall₂ (IsDigit 16) cs values := by
  induction cs generalizing values with
  | nil => simp
  | cons c cs ih =>
    rw [List.flatMap_cons]
    by_cases hc : c.toNat < 128
    · rw [utf8_of_ascii hc, List.singleton_append]
      simp only [List.forall₂_cons_left_iff, isDigit_iff_code hc, ih]
    · obtain ⟨b, rest, hb, hlow⟩ := utf8_of_not_ascii hc
      rw [hb, List.cons_append]
      refine iff_of_false (fun h => ?_) fun h => ?_
      · cases h with
        | cons hdigit _ => simpa [digitValue_of_not_ascii hlow] using hdigit.2
      · cases h with
        | cons hdigit _ => exact hc (ascii_of_isDigit hdigit)

theorem codes_eq (text : String) :
    text.toUTF8.data.toList = text.toList.flatMap String.utf8EncodeChar := by
  rw [String.toUTF8_eq_toByteArray, ← String.utf8Encode_toList, List.utf8Encode,
    List.toList_data_toByteArray]

end Codes

section Decode

variable {codes : List UInt8} {done bytes : Bytes} {position : Nat} {values : List Nat}

theorem toNat_pair {hi lo h l : UInt8} (hh : digitValue hi = some h) (hl : digitValue lo = some l)
    (done : Bytes) :
    Bytes.toNat (done.push (h * 16 + l)) = placedAfter 16 done.toNat [h.toNat, l.toNat] := by
  have hh16 := (isDigitCode_of_digitValue hh).1
  have hl16 := (isDigitCode_of_digitValue hl).1
  have hbyte : (h * 16 + l).toNat = h.toNat * 16 + l.toNat := by
    simp only [UInt8.toNat_add, UInt8.toNat_mul, UInt8.reduceToNat]
    omega
  rw [Bytes.toNat_push, hbyte]
  simp only [placedAfter, List.foldl_cons, List.foldl_nil]
  omega

/-- What is read of digits has a byte for each pair of them, and places them after what is done. -/
theorem decodePairs_ok (heven : codes.length % 2 = 0)
    (h : decodePairs done position codes = .ok bytes) :
    ∃ values, List.Forall₂ IsDigitCode codes values ∧
      codes.length + 2 * done.size = 2 * bytes.size ∧
      bytes.toNat = placedAfter 16 done.toNat values := by
  induction done, position, codes using decodePairs.induct with
  | case1 done position hi lo rest h' l hl hh ih =>
    rw [decodePairs, hh, hl] at h
    have hrest : rest.length % 2 = 0 := by
      simp only [List.length_cons] at heven
      omega
    obtain ⟨values, hvalues, hsize, hnumber⟩ := ih hrest h
    refine ⟨h'.toNat :: l.toNat :: values,
      .cons (isDigitCode_of_digitValue hh) (.cons (isDigitCode_of_digitValue hl) hvalues), ?_, ?_⟩
    · simp only [List.length_cons, Array.size_push] at hsize ⊢
      omega
    · rw [hnumber, toNat_pair hh hl]
      rfl
  | case2 done position hi lo rest hnone =>
    rw [decodePairs, hnone] at h
    cases h
  | case3 done position hi lo rest hnone hsome =>
    rw [decodePairs, hnone] at h
    cases hhi : digitValue hi with
    | none => exact absurd hhi hsome
    | some v =>
      rw [hhi] at h
      cases h
  | case4 codes done position hshort =>
    match codes with
    | [] =>
      cases h
      exact ⟨[], .nil, by simp, rfl⟩
    | [b] => cases heven
    | hi :: lo :: rest => exact (hshort hi lo rest rfl).elim

/-- Digits are read. -/
theorem decodePairs_of_digits (h : ∀ b ∈ codes, ∃ value, IsDigitCode b value) (done : Bytes)
    (position : Nat) : ∃ bytes, decodePairs done position codes = .ok bytes := by
  induction done, position, codes using decodePairs.induct with
  | case1 done position hi lo rest h' l hl hh ih =>
    rw [decodePairs, hh, hl]
    exact ih fun b hb => h b (List.mem_cons_of_mem _ (List.mem_cons_of_mem _ hb))
  | case2 done position hi lo rest hnone =>
    obtain ⟨value, -, hdigit⟩ := h hi List.mem_cons_self
    cases hnone.symm.trans hdigit
  | case3 done position hi lo rest hnone hsome =>
    obtain ⟨value, -, hdigit⟩ := h lo (List.mem_cons_of_mem _ List.mem_cons_self)
    cases hnone.symm.trans hdigit
  | case4 codes done position hshort =>
    match codes with
    | [] => exact ⟨done, rfl⟩
    | [b] => exact ⟨done, rfl⟩
    | hi :: lo :: rest => exact (hshort hi lo rest rfl).elim

/-- The bytes are ASCII codes of the digits of the number. -/
def CodesDenote (codes : List UInt8) (n : Nat) : Prop :=
  ∃ values, List.Forall₂ IsDigitCode codes values ∧ n = placedAfter 16 0 values

theorem CodesDenote.unique {m n : Nat} (h : CodesDenote codes m) (h' : CodesDenote codes n) :
    m = n := by
  have hunique : Relator.RightUnique IsDigitCode := by
    rintro b v w ⟨hv, hbv⟩ ⟨hw, hbw⟩
    have hbyte := congrArg UInt8.toNat (Option.some.inj (hbv.symm.trans hbw))
    rwa [UInt8.toNat_ofNat_of_lt' (show v < 256 by omega),
      UInt8.toNat_ofNat_of_lt' (show w < 256 by omega)] at hbyte
  obtain ⟨values, hvalues, rfl⟩ := h
  obtain ⟨values', hvalues', rfl⟩ := h'
  rw [hunique.forall₂ hvalues hvalues']

/-- A zero in front does not change the number. -/
theorem codesDenote_zero_cons {n : Nat} : CodesDenote (48 :: codes) n ↔ CodesDenote codes n := by
  have hzero {value : Nat} : IsDigitCode 48 value ↔ value = 0 := by
    constructor
    · rintro ⟨hlt, hvalue⟩
      have hbyte := congrArg UInt8.toNat (Option.some.inj hvalue)
      rw [UInt8.toNat_ofNat_of_lt' (show value < 256 by omega)] at hbyte
      exact hbyte.symm
    · rintro rfl
      decide
  constructor
  · rintro ⟨values, hvalues, rfl⟩
    cases hvalues with
    | cons hdigit hvalues =>
      obtain rfl := hzero.1 hdigit
      exact ⟨_, hvalues, rfl⟩
  · rintro ⟨values, hvalues, rfl⟩
    exact ⟨0 :: values, .cons (hzero.2 rfl) hvalues, rfl⟩

/-- A text of digit pairs is read as bytes that denote the same number. -/
theorem CodesDenote.exists_bytes {n : Nat} (h : CodesDenote codes n)
    (heven : codes.length % 2 = 0) : ∃ bytes, decodePairs #[] 0 codes = .ok bytes ∧
      codes.length = 2 * bytes.size ∧ bytes.toNat = n := by
  have hdigits : ∀ b ∈ codes, ∃ value, IsDigitCode b value := by
    obtain ⟨values, hvalues, -⟩ := h
    clear heven
    induction hvalues with
    | nil => nofun
    | cons hdigit _ ih => exact List.forall_mem_cons.2 ⟨⟨_, hdigit⟩, ih⟩
  obtain ⟨bytes, hbytes⟩ := decodePairs_of_digits hdigits #[] 0
  obtain ⟨values, hvalues, hsize, hnumber⟩ := decodePairs_ok heven hbytes
  exact ⟨bytes, hbytes, hsize, CodesDenote.unique ⟨values, hvalues, hnumber⟩ h⟩

theorem decodePairs_eq_ok_iff (heven : codes.length % 2 = 0) :
    decodePairs #[] 0 codes = .ok bytes ↔
      codes.length = 2 * bytes.size ∧ CodesDenote codes bytes.toNat := by
  constructor
  · intro h
    obtain ⟨values, hvalues, hsize, hnumber⟩ := decodePairs_ok heven h
    exact ⟨hsize, values, hvalues, hnumber⟩
  · rintro ⟨hsize, hdenote⟩
    obtain ⟨bytes', hbytes', hsize', hnumber⟩ := hdenote.exists_bytes heven
    rw [hbytes', Bytes.eq_of_toNat_eq (by omega) hnumber]

end Decode

section Text

variable {text : String} {bytes : Bytes} {n : Nat}

theorem codesDenote_iff {cs : List Char} :
    CodesDenote (cs.flatMap String.utf8EncodeChar) n ↔ Denotes 16 cs n := by
  simp only [CodesDenote, forall₂_code_iff, Text.denotes_iff_placedAfter]

theorem length_codes {cs : List Char} (h : Denotes 16 cs n) :
    (cs.flatMap String.utf8EncodeChar).length = cs.length := by
  obtain ⟨values, hvalues, -⟩ := h
  rw [hvalues.length_eq, (forall₂_code_iff.2 hvalues).length_eq]

/-- A text is read as bytes exactly if it has two digits for each of them and denotes their
number. -/
theorem decode_eq_ok_iff : decode text = .ok bytes ↔
    text.toList.length = 2 * bytes.size ∧ Denotes 16 text.toList bytes.toNat := by
  unfold decode
  rw [codes_eq]
  dsimp only
  split
  · next hodd =>
    refine iff_of_false nofun ?_
    rintro ⟨hsize, hdenote⟩
    have hlength := length_codes hdenote
    omega
  · next heven =>
    rw [mapError_eq_ok_iff, decodePairs_eq_ok_iff (by omega), codesDenote_iff]
    refine and_congr_left fun hdenote => ?_
    rw [length_codes hdenote]

theorem decode_isOk_iff : (∃ bytes, decode text = .ok bytes) ↔
    text.toList.length % 2 = 0 ∧ AllDigits text.toList := by
  simp only [decode_eq_ok_iff]
  constructor
  · rintro ⟨bytes, hsize, hdenote⟩
    exact ⟨by omega, Text.exists_denotes_iff.1 ⟨_, hdenote⟩⟩
  · rintro ⟨heven, hdigits⟩
    obtain ⟨n, hn⟩ := Text.exists_denotes_iff.2 hdigits
    have hlength : text.toList.length = 2 * (text.toList.length / 2) := by omega
    have hlt := hn.lt (by decide)
    rw [hlength, Nat.pow_mul] at hlt
    refine ⟨Bytes.ofNat (text.toList.length / 2) n, by rwa [Bytes.size_ofNat], ?_⟩
    rwa [Bytes.toNat_ofNat, Nat.mod_eq_of_lt hlt]

end Text

section Encode

theorem isDigit_pair (b : UInt8) : IsDigit 16 (digitChar (b / 16)) (b / 16).toNat ∧
    IsDigit 16 (digitChar (b % 16)) (b % 16).toNat :=
  Bytes.of_fin (P := fun b => IsDigit 16 (digitChar (b / 16)) (b / 16).toNat ∧
    IsDigit 16 (digitChar (b % 16)) (b % 16).toNat) (by decide +kernel) b

theorem toList_encode (bytes : Bytes) : (encode bytes).toList = bytes.toList.flatMap pair :=
  String.toList_ofList

theorem length_encode (bytes : Bytes) : (encode bytes).toList.length = 2 * bytes.size := by
  rw [toList_encode, ← Array.length_toList]
  induction bytes.toList with
  | nil => rfl
  | cons b rest ih =>
    rw [List.flatMap_cons, List.length_append, ih, List.length_cons, pair, List.length_cons,
      List.length_singleton]
    omega

theorem denotes_encode (bytes : Bytes) : Denotes 16 (encode bytes).toList bytes.toNat := by
  rw [toList_encode]
  obtain ⟨codes⟩ := bytes
  induction codes using List.reverseRecOn with
  | nil => exact Text.denotes_nil 16
  | append_singleton codes b ih =>
    obtain ⟨hhigh, hlow⟩ := isDigit_pair b
    have hpair := (ih.concat hhigh).concat hlow
    have hnumber : Bytes.toNat (codes ++ [b]).toArray =
        (Bytes.toNat codes.toArray * 16 + (b / 16).toNat) * 16 + (b % 16).toNat := by
      have hpush : (codes ++ [b]).toArray = codes.toArray.push b := by simp
      simp only [hpush, Bytes.toNat_push, UInt8.toNat_div, UInt8.toNat_mod, UInt8.reduceToNat]
      omega
    simpa [hnumber, pair] using hpair

/-- What is written is read back. -/
theorem decode_encode (bytes : Bytes) : decode (encode bytes) = .ok bytes :=
  decode_eq_ok_iff.2 ⟨length_encode bytes, denotes_encode bytes⟩

/-- The digits are ordered like their values. -/
theorem digitChar_lt_iff {v w : UInt8} (hv : v.toNat < 16) (hw : w.toNat < 16) :
    (digitChar v < digitChar w ↔ v < w) ∧ (digitChar v = digitChar w ↔ v = w) := by
  have hall : ∀ i j : Fin 16, (digitChar (UInt8.ofNat i) < digitChar (UInt8.ofNat j) ↔
      UInt8.ofNat i < UInt8.ofNat j) ∧
      (digitChar (UInt8.ofNat i) = digitChar (UInt8.ofNat j) ↔
        UInt8.ofNat i = UInt8.ofNat j) := by decide +kernel
  simpa only [UInt8.ofNat_toNat] using hall ⟨v.toNat, hv⟩ ⟨w.toNat, hw⟩

theorem pair_append_lt_iff (b c : UInt8) (cs ds : List Char) :
    pair b ++ cs < pair c ++ ds ↔ b < c ∨ b = c ∧ cs < ds := by
  have hhalf (b : UInt8) : (b / 16).toNat < 16 ∧ (b % 16).toNat < 16 ∧
      b.toNat = (b / 16).toNat * 16 + (b % 16).toNat := by
    have hb := b.toNat_lt
    simp only [UInt8.toNat_div, UInt8.toNat_mod, UInt8.reduceToNat]
    omega
  obtain ⟨hb₁, hb₂, hb⟩ := hhalf b
  obtain ⟨hc₁, hc₂, hc⟩ := hhalf c
  obtain ⟨hlt₁, heq₁⟩ := digitChar_lt_iff hb₁ hc₁
  obtain ⟨hlt₂, heq₂⟩ := digitChar_lt_iff hb₂ hc₂
  simp only [pair, List.cons_append, List.nil_append, List.cons_lt_cons_iff, hlt₁, hlt₂, heq₁,
    heq₂, UInt8.lt_iff_toNat_lt, ← UInt8.toNat_inj]
  by_cases hrest : cs < ds
  · simp only [hrest, and_true]
    omega
  · simp only [hrest, and_false, or_false]
    omega

/-- Texts of byte strings are ordered like these, byte by byte. -/
theorem encode_lt_encode_iff (a b : Bytes) : encode a < encode b ↔ a.toList < b.toList := by
  rw [String.lt_iff, toList_encode, toList_encode]
  generalize a.toList = as, b.toList = bs
  induction as generalizing bs with
  | nil =>
    cases bs with
    | nil => simp
    | cons b bs => simp [pair]
  | cons a as ih =>
    cases bs with
    | nil => simp
    | cons b bs =>
      rw [List.flatMap_cons, List.flatMap_cons, pair_append_lt_iff, List.cons_lt_cons_iff, ih]

theorem marked_lt_marked_iff {a b : Bytes} (h : a.size = b.size) :
    marked a < marked b ↔ a.toNat < b.toNat := by
  rw [← Bytes.toList_lt_iff h, ← encode_lt_encode_iff, String.lt_iff,
    String.lt_iff, marked, marked]
  simp

end Encode

/-- The text without the mark `0x`, if it has one. -/
def unmarked (cs : List Char) : List Char := if ['0', 'x'] <+: cs then cs.drop 2 else cs

theorem unmarked_marked (cs : List Char) : unmarked ('0' :: 'x' :: cs) = cs := by
  simp [unmarked]

theorem toList_withoutMark (text : String) : (withoutMark text).toList = unmarked text.toList := by
  unfold withoutMark unmarked
  split
  · next rest h => simp [h]
  · next h =>
    rw [if_neg]
    rintro ⟨rest, hrest⟩
    exact h rest hrest.symm

theorem withoutMark_marked (bytes : Bytes) : withoutMark (marked bytes) = encode bytes := by
  rw [← String.toList_inj, toList_withoutMark, marked, String.toList_append]
  exact unmarked_marked _

theorem marked_inj {a b : Bytes} : marked a = marked b ↔ a = b := by
  constructor
  · intro h
    have hread := congrArg (fun text => decode (withoutMark text)) h
    simpa only [withoutMark_marked, decode_encode, Except.ok.injEq] using hread
  · rintro rfl
    rfl

end Hex

end SpeculativeEvm
