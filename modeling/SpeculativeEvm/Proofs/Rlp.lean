import Mathlib.Data.List.Basic
import Mathlib.Order.Lattice
import SpeculativeEvm.Proofs.Bytes
import SpeculativeEvm.Rlp

/-! The recursive length prefix read back. The reader is strict: it refuses lengths that are not in
their shortest form, numbers in a length that begin with a zero, and a header before a byte that is
its own code. What it accepts as a list of byte strings is exactly the code of that list, so every
list has one code and every code one list. -/

namespace SpeculativeEvm

namespace Bytes

structure Minimal (digits : Bytes) (n : Nat) : Prop where
  toNat_eq : digits.toNat = n
  head_ne : digits[0]? ≠ some 0

theorem head_ofNat_eq_zero_iff {width n : Nat} (h : n < 256 ^ (width + 1)) :
    (ofNat (width + 1) n)[0]? = some 0 ↔ n < 256 ^ width := by
  have hbits : 2 ^ (8 * width) = 256 ^ width := Nat.pow_mul 2 8 width
  have hhead : (ofNat (width + 1) n)[0]? = some (UInt8.ofNat (n / 256 ^ width)) := by
    simp [ofNat, Nat.shiftRight_eq_div_pow, hbits]
  have hlt : n / 256 ^ width < 256 := by
    rwa [Nat.div_lt_iff_lt_mul (Nat.pow_pos (by decide)), ← Nat.pow_succ']
  have hpos : 0 < 256 ^ width := Nat.pow_pos (by decide)
  rw [hhead, Option.some_inj, ← UInt8.toNat_inj, UInt8.toNat_ofNat_of_lt' hlt,
    ← Nat.div_eq_zero_iff_lt hpos]
  rfl

/-- A number has one sequence of digits. -/
theorem minimal_iff {digits : Bytes} {n : Nat} : digits.Minimal n ↔ digits = ofNatMinimal n := by
  have hfits : n < 256 ^ byteLength n := (byteLength_le_iff _ n).1 (Nat.le_refl _)
  constructor
  · rintro ⟨rfl, hhead⟩
    have hle : byteLength digits.toNat ≤ digits.size :=
      (byteLength_le_iff _ _).2 digits.toNat_lt
    have hge : digits.size ≤ byteLength digits.toNat := by
      cases hsize : digits.size with
      | zero => exact Nat.zero_le _
      | succ size =>
        have hlt := digits.toNat_lt
        rw [hsize] at hlt
        rw [← ofNat_toNat digits, hsize, Ne, head_ofNat_eq_zero_iff hlt,
          ← byteLength_le_iff] at hhead
        omega
    rw [ofNatMinimal, Nat.le_antisymm hle hge, ofNat_toNat]
  · rintro rfl
    refine ⟨?_, fun hhead => ?_⟩
    · rw [ofNatMinimal, toNat_ofNat, Nat.mod_eq_of_lt hfits]
    · cases hlength : byteLength n with
      | zero => simp [ofNatMinimal, hlength, ofNat] at hhead
      | succ length =>
        rw [hlength] at hfits
        rw [ofNatMinimal, hlength, head_ofNat_eq_zero_iff hfits, ← byteLength_le_iff] at hhead
        omega

theorem size_ofNatMinimal (n : Nat) : (ofNatMinimal n).size = byteLength n := size_ofNat _ n

end Bytes

namespace Rlp

open Bytes (byteLength ofNatMinimal)

/-- What the first byte of a header says of the length: the length, or how many digits follow. -/
def mark (length : Nat) : Nat := if length ≤ 55 then length else 55 + byteLength length

def lengthDigits (length : Nat) : Bytes := if length ≤ 55 then #[] else ofNatMinimal length

theorem header_eq (base length : Nat) :
    header base length = #[UInt8.ofNat (base + mark length)] ++ lengthDigits length := by
  unfold header mark lengthDigits
  split
  · rfl
  · show #[UInt8.ofNat (base + 55 + (ofNatMinimal length).size)] ++ ofNatMinimal length = _
    rw [Bytes.size_ofNatMinimal, Nat.add_assoc]

/-- A first byte has room for lengths below `2 ^ 64`. -/
theorem mark_le_iff (length : Nat) : mark length ≤ 63 ↔ length < 2 ^ 64 := by
  have hdigits := Bytes.byteLength_le_iff 8 length
  unfold mark
  split
  · omega
  · omega

def split? (count : Nat) (bytes : List UInt8) : Option (Bytes × List UInt8) :=
  if count ≤ bytes.length then some ((bytes.take count).toArray, bytes.drop count) else none

/-- Reads a length of which the first byte is read already. -/
def length? (mark : Nat) (bytes : List UInt8) : Option (Nat × List UInt8) :=
  if mark ≤ 55 then some (mark, bytes)
  else do
    let (digits, rest) ← split? (mark - 55) bytes
    if digits[0]? = some 0 ∨ digits.toNat ≤ 55 then none else some (digits.toNat, rest)

/-- The string is one byte that is its own code. -/
def Alone (s : Bytes) : Prop := s.size = 1 ∧ s.at0 0 < 0x80

instance (s : Bytes) : Decidable (Alone s) :=
  inferInstanceAs (Decidable (s.size = 1 ∧ s.at0 0 < 0x80))

/-- Reads a byte string. -/
def string? : List UInt8 → Option (Bytes × List UInt8)
  | [] => none
  | b :: bytes =>
    if b < 0x80 then some (#[b], bytes)
    else if 0xc0 ≤ b then none
    else do
      let (length, bytes) ← length? (b.toNat - 0x80) bytes
      let (s, rest) ← split? length bytes
      if Alone s then none else some (s, rest)

section Read

variable {bytes rest : List UInt8} {s : Bytes}

theorem split?_eq_some_iff {count : Nat} :
    split? count bytes = some (s, rest) ↔ s.size = count ∧ bytes = s.toList ++ rest := by
  unfold split?
  constructor
  · intro h
    split at h
    · next hle =>
      obtain ⟨rfl, rfl⟩ := Prod.mk.inj (Option.some.inj h)
      simpa using hle
    · cases h
  · rintro ⟨rfl, rfl⟩
    simp

theorem length?_eq_some_iff {m length : Nat} :
    length? m bytes = some (length, rest) ↔
      m = mark length ∧ bytes = (lengthDigits length).toList ++ rest := by
  unfold length? mark lengthDigits
  constructor
  · intro h
    split at h
    · next hm =>
      obtain ⟨rfl, rfl⟩ := Prod.mk.inj (Option.some.inj h)
      simp [hm]
    · next hm =>
      obtain ⟨⟨digits, others⟩, hsplit, hread⟩ := Option.bind_eq_some_iff.1 h
      obtain ⟨hsize, rfl⟩ := split?_eq_some_iff.1 hsplit
      simp only at hread
      split at hread
      · cases hread
      · next hstrict =>
        obtain ⟨rfl, rfl⟩ := Prod.mk.inj (Option.some.inj hread)
        obtain ⟨hhead, hlong⟩ := not_or.1 hstrict
        have hdigits := Bytes.minimal_iff.1 ⟨rfl, hhead⟩
        have hlength := congrArg Array.size hdigits
        rw [Bytes.size_ofNatMinimal] at hlength
        rw [if_neg hlong, if_neg hlong, ← hdigits]
        exact ⟨by omega, rfl⟩
  · rintro ⟨rfl, rfl⟩
    by_cases hshort : length ≤ 55
    · simp [hshort]
    · obtain ⟨hvalue, hhead⟩ := Bytes.minimal_iff.2 (rfl : ofNatMinimal length = _)
      have hpos : ¬ byteLength length = 0 := by
        intro hzero
        have hlt := (Bytes.byteLength_le_iff 0 length).1 (Nat.le_of_eq hzero)
        omega
      have hmark : ¬ 55 + byteLength length ≤ 55 := by omega
      have hsplit : split? (55 + byteLength length - 55) ((ofNatMinimal length).toList ++ rest) =
          some (ofNatMinimal length, rest) := by
        rw [split?_eq_some_iff, Bytes.size_ofNatMinimal]
        exact ⟨by omega, rfl⟩
      simp only [if_neg hshort, if_neg hmark, hsplit, Option.bind_eq_bind, Option.bind_some, hvalue]
      exact if_neg (not_or.2 ⟨hhead, hshort⟩)

/-- A header is a first byte and the length that is read after it. -/
theorem cons_eq_header_iff {base length : Nat} {b : UInt8} (hbase : base + 63 < 256)
    (hlength : length < 2 ^ 64) :
    b :: bytes = (header base length).toList ++ rest ↔
      base ≤ b.toNat ∧ length? (b.toNat - base) bytes = some (length, rest) := by
  have hmark := (mark_le_iff length).2 hlength
  have hfirst : b = UInt8.ofNat (base + mark length) ↔ b.toNat = base + mark length := by
    rw [← UInt8.toNat_inj, UInt8.toNat_ofNat_of_lt' (show _ < 256 by omega)]
  rw [header_eq, Array.toList_append, List.append_assoc, length?_eq_some_iff]
  simp only [List.singleton_append, List.cons.injEq, hfirst]
  constructor
  · rintro ⟨hb, hbytes⟩
    exact ⟨by omega, by omega, hbytes⟩
  · rintro ⟨hle, hb, hbytes⟩
    exact ⟨by omega, hbytes⟩

theorem lt_of_length? {m length : Nat} (hm : m ≤ 63)
    (h : length? m bytes = some (length, rest)) : length < 2 ^ 64 := by
  obtain ⟨rfl, -⟩ := length?_eq_some_iff.1 h
  exact (mark_le_iff length).1 hm

theorem encodeBytes_of_alone (h : Alone s) : encodeBytes s = s := if_pos h

theorem encodeBytes_of_not_alone (h : ¬ Alone s) :
    encodeBytes s = header 0x80 s.size ++ s := if_neg h

theorem eq_singleton_of_alone (h : Alone s) : ∃ b < 0x80, s = #[b] := by
  obtain ⟨b, rfl⟩ := Array.size_eq_one_iff.1 h.1
  exact ⟨b, h.2, rfl⟩

theorem exists_header_eq_cons (base length : Nat) :
    ∃ b digits, (header base length).toList = b :: digits := by
  rw [header_eq, Array.toList_append]
  exact ⟨_, _, rfl⟩

theorem of_string? (h : string? bytes = some (s, rest)) :
    s.size < 2 ^ 64 ∧ bytes = (encodeBytes s).toList ++ rest := by
  cases bytes with
  | nil => cases h
  | cons b bytes =>
    rw [string?] at h
    by_cases hlow : b < 0x80
    · rw [if_pos hlow] at h
      obtain ⟨rfl, rfl⟩ := Prod.mk.inj (Option.some.inj h)
      have halone : Alone #[b] := ⟨rfl, hlow⟩
      rw [encodeBytes_of_alone halone]
      exact ⟨show 1 < 2 ^ 64 by decide, rfl⟩
    · rw [if_neg hlow] at h
      split at h
      · cases h
      · next hhigh =>
        have hle : 0x80 ≤ b.toNat := Nat.le_of_not_lt hlow
        have hlt : b.toNat < 0xc0 := Nat.lt_of_not_le hhigh
        obtain ⟨⟨length, others⟩, hlength, hread⟩ := Option.bind_eq_some_iff.1 h
        obtain ⟨⟨s', rest'⟩, hsplit, hstring⟩ := Option.bind_eq_some_iff.1 hread
        obtain ⟨rfl, rfl⟩ := split?_eq_some_iff.1 hsplit
        simp only at hstring
        split at hstring
        · cases hstring
        · next halone =>
          obtain ⟨rfl, rfl⟩ := Prod.mk.inj (Option.some.inj hstring)
          have hsize := lt_of_length? (by omega) hlength
          rw [encodeBytes_of_not_alone halone, Array.toList_append, List.append_assoc,
            cons_eq_header_iff (by decide) hsize]
          exact ⟨hsize, hle, hlength⟩

theorem string?_encodeBytes (hsize : s.size < 2 ^ 64) (rest : List UInt8) :
    string? ((encodeBytes s).toList ++ rest) = some (s, rest) := by
  by_cases halone : Alone s
  · obtain ⟨b, hb, rfl⟩ := eq_singleton_of_alone halone
    rw [encodeBytes_of_alone halone]
    exact if_pos hb
  · obtain ⟨b, digits, hheader⟩ := exists_header_eq_cons 0x80 s.size
    have hcode : b :: (digits ++ (s.toList ++ rest)) =
        (header 0x80 s.size).toList ++ (s.toList ++ rest) := by rw [hheader, List.cons_append]
    obtain ⟨hle, hlength⟩ := (cons_eq_header_iff (by decide) hsize).1 hcode
    have hmark := (mark_le_iff s.size).2 hsize
    have hlow : ¬ b < 0x80 := Nat.not_lt_of_le hle
    have hhigh : ¬ 0xc0 ≤ b := by
      rw [(length?_eq_some_iff.1 hlength).1.symm] at hmark
      exact Nat.not_le_of_lt (show b.toNat < 0xc0 by omega)
    have hsplit : split? s.size (s.toList ++ rest) = some (s, rest) :=
      split?_eq_some_iff.2 ⟨rfl, rfl⟩
    rw [encodeBytes_of_not_alone halone, Array.toList_append, List.append_assoc, ← hcode]
    simp only [string?, if_neg hlow, if_neg hhigh, hlength, hsplit, Option.bind_eq_bind,
      Option.bind_some, if_neg halone]

theorem length_lt_of_string? (h : string? bytes = some (s, rest)) : rest.length < bytes.length := by
  obtain ⟨b, digits, hcode⟩ : ∃ b digits, (encodeBytes s).toList = b :: digits := by
    by_cases halone : Alone s
    · obtain ⟨b, -, rfl⟩ := eq_singleton_of_alone halone
      exact ⟨b, [], by rw [encodeBytes_of_alone halone]⟩
    · obtain ⟨b, digits, hheader⟩ := exists_header_eq_cons 0x80 s.size
      rw [encodeBytes_of_not_alone halone, Array.toList_append, hheader]
      exact ⟨b, _, List.cons_append⟩
  rw [(of_string? h).2, hcode, List.cons_append, List.length_cons, List.length_append]
  omega

end Read

/-- Reads byte strings to the end. -/
def strings? (bytes : List UInt8) : Option (List Bytes) :=
  if bytes = [] then some []
  else
    match _h : string? bytes with
    | none => none
    | some (s, rest) => (strings? rest).map (s :: ·)
termination_by bytes.length
decreasing_by exact length_lt_of_string? _h

/-- Reads a list of byte strings, and nothing after it. -/
def list? : List UInt8 → Option (List Bytes)
  | [] => none
  | b :: bytes =>
    if b < 0xc0 then none
    else do
      let (length, payload) ← length? (b.toNat - 0xc0) bytes
      if payload.length = length then strings? payload else none

def codes (items : List Bytes) : List UInt8 := items.flatMap fun s => (encodeBytes s).toList

theorem encodeList_eq (items : List Bytes) :
    (encodeList (items.map encodeBytes)).toList =
      (header 0xc0 (codes items).length).toList ++ codes items := by
  have hfoldl (payload : Bytes) :
      ((items.map encodeBytes).foldl (· ++ ·) payload).toList = payload.toList ++ codes items := by
    induction items generalizing payload with
    | nil => simp [codes]
    | cons s items ih =>
      rw [List.map_cons, List.foldl_cons, ih, Array.toList_append, List.append_assoc]
      rfl
  have hpayload := hfoldl #[]
  rw [encodeList, Array.toList_append, hpayload, ← Array.length_toList, hpayload]
  rfl

section ReadList

variable {bytes : List UInt8} {items : List Bytes}

theorem strings?_eq_nil_iff : strings? bytes = some [] ↔ bytes = [] := by
  rw [strings?]
  by_cases hbytes : bytes = []
  · simp [hbytes]
  · rw [if_neg hbytes, iff_false_right hbytes]
    split
    · exact nofun
    · simp

theorem strings?_eq_cons_iff {s : Bytes} : strings? bytes = some (s :: items) ↔
    ∃ rest, string? bytes = some (s, rest) ∧ strings? rest = some items := by
  rw [strings?]
  by_cases hbytes : bytes = []
  · simp [hbytes, string?]
  · rw [if_neg hbytes]
    split
    · next hnone => simp [hnone]
    · next s' rest hsome => simp [hsome, and_comm]

theorem strings?_eq_some_iff :
    strings? bytes = some items ↔ (∀ s ∈ items, s.size < 2 ^ 64) ∧ bytes = codes items := by
  induction items generalizing bytes with
  | nil => simpa [codes] using strings?_eq_nil_iff
  | cons s items ih =>
    rw [strings?_eq_cons_iff, List.forall_mem_cons]
    constructor
    · rintro ⟨rest, hstring, hrest⟩
      obtain ⟨hsize, rfl⟩ := of_string? hstring
      obtain ⟨hsizes, rfl⟩ := ih.1 hrest
      exact ⟨⟨hsize, hsizes⟩, rfl⟩
    · rintro ⟨⟨hsize, hsizes⟩, rfl⟩
      exact ⟨codes items, string?_encodeBytes hsize _, ih.2 ⟨hsizes, rfl⟩⟩

theorem size_le_length_codes {s : Bytes} (h : s ∈ items) : s.size ≤ (codes items).length := by
  have hcode : s.size ≤ (encodeBytes s).size := by
    by_cases halone : Alone s
    · rw [encodeBytes_of_alone halone]
    · rw [encodeBytes_of_not_alone halone, Array.size_append]
      exact Nat.le_add_left ..
  obtain ⟨before, after, rfl⟩ := List.append_of_mem h
  simp only [codes, List.flatMap_append, List.flatMap_cons, List.length_append,
    Array.length_toList]
  omega

/-- The reader accepts the codes of lists and nothing else. -/
theorem list?_eq_some_iff {code : Bytes} : list? code.toList = some items ↔
    (codes items).length < 2 ^ 64 ∧ code = encodeList (items.map encodeBytes) := by
  rw [← Array.toList_inj, encodeList_eq]
  cases hcode : code.toList with
  | nil =>
    obtain ⟨b, digits, hheader⟩ := exists_header_eq_cons 0xc0 (codes items).length
    rw [hheader]
    exact iff_of_false nofun nofun
  | cons b bytes =>
    rw [list?]
    constructor
    · intro h
      split at h
      · cases h
      · next hlow =>
        have hle : 0xc0 ≤ b.toNat := Nat.le_of_not_lt hlow
        have hlt := b.toNat_lt
        obtain ⟨⟨length, payload⟩, hlength, hpayload⟩ := Option.bind_eq_some_iff.1 h
        simp only at hpayload
        split at hpayload
        · next hsize =>
          obtain ⟨-, rfl⟩ := strings?_eq_some_iff.1 hpayload
          have hbound := lt_of_length? (by omega) hlength
          rw [hsize, cons_eq_header_iff (by decide) hbound]
          exact ⟨hbound, hle, hlength⟩
        · cases hpayload
    · rintro ⟨hbound, hbytes⟩
      obtain ⟨hle, hlength⟩ := (cons_eq_header_iff (by decide) hbound).1 hbytes
      have hlow : ¬ b < 0xc0 := Nat.not_lt_of_le hle
      have hitems : strings? (codes items) = some items :=
        strings?_eq_some_iff.2 ⟨fun s hs => Nat.lt_of_le_of_lt (size_le_length_codes hs) hbound, rfl⟩
      simp only [if_neg hlow, hlength, Option.bind_eq_bind, Option.bind_some, if_true, hitems]

end ReadList

end Rlp

end SpeculativeEvm
