import SpeculativeEvm.Creation
import SpeculativeEvm.Proofs.Rlp

/-! What the addresses of created contracts are hashes of. For a plain creation it is the one code
of the list of the sender and its nonce, for a salted one it is the sender, the salt and a hash at
fixed places behind a byte that begins no code of so short a list. So no two creations that differ
in what they are made of hash the same bytes. -/

namespace SpeculativeEvm

theorem Rlp.size_encodeBytes_le {s : Bytes} (h : s.size ≤ 55) :
    (encodeBytes s).size ≤ s.size + 1 := by
  by_cases halone : Alone s
  · rw [encodeBytes_of_alone halone]
    exact Nat.le_succ _
  · rw [encodeBytes_of_not_alone halone, header, if_pos h, Array.size_append, Nat.add_comm]
    exact Nat.le_refl _

namespace Creation

def items (sender : Address) (nonce : UInt64) : List Bytes :=
  [sender.bytes, Bytes.ofNatMinimal nonce.toNat]

section Plain

variable (sender : Address) (nonce : UInt64)

/-- With at most eight bytes for the nonce, the length of the list is in its first byte. -/
theorem length_codes_items_le : (Rlp.codes (items sender nonce)).length ≤ 30 := by
  have hnonce : Bytes.byteLength nonce.toNat ≤ 8 :=
    (Bytes.byteLength_le_iff 8 _).2 nonce.toNat_lt
  have hsize := Bytes.size_ofNatMinimal nonce.toNat
  have hfirst := Rlp.size_encodeBytes_le (s := sender.bytes) (by simp)
  have hsecond := Rlp.size_encodeBytes_le (s := Bytes.ofNatMinimal nonce.toNat) (by omega)
  rw [Address.size_bytes] at hfirst
  simp only [Rlp.codes, items, List.flatMap_cons, List.flatMap_nil, List.length_append,
    List.length_nil, Array.length_toList]
  omega

theorem list?_preimage_iff (code : Bytes) :
    Rlp.list? code.toList = some (items sender nonce) ↔ code = preimage sender nonce := by
  have hlength := length_codes_items_le sender nonce
  rw [Rlp.list?_eq_some_iff, and_iff_right (by omega)]
  rfl

theorem head_preimage : ∃ length ≤ 30,
    (preimage sender nonce)[0]? = some (UInt8.ofNat (0xc0 + length)) := by
  have hlength := length_codes_items_le sender nonce
  refine ⟨_, hlength, ?_⟩
  have hcode := Rlp.encodeList_eq (items sender nonce)
  rw [Rlp.header, if_pos (by omega)] at hcode
  rw [← Array.getElem?_toList]
  exact congrArg (·[0]?) hcode

end Plain

theorem preimage_inj {s s' : Address} {n n' : UInt64} :
    preimage s n = preimage s' n' ↔ s = s' ∧ n = n' := by
  constructor
  · intro h
    have hread := (list?_preimage_iff s n _).2 rfl
    rw [h, (list?_preimage_iff s' n' _).2 rfl] at hread
    obtain ⟨hsender, hrest⟩ := List.cons.inj (Option.some.inj hread)
    have hdigits := congrArg Bytes.toNat (List.cons.inj hrest).1
    have hn := Bytes.minimal_iff.2 (rfl : Bytes.ofNatMinimal n.toNat = _)
    have hn' := Bytes.minimal_iff.2 (rfl : Bytes.ofNatMinimal n'.toNat = _)
    rw [hn.toNat_eq, hn'.toNat_eq] at hdigits
    exact ⟨(Address.bytes_inj.1 hsender).symm, (UInt64.toNat_inj.1 hdigits).symm⟩
  · rintro ⟨rfl, rfl⟩
    rfl

theorem saltedPreimage_inj {s s' : Address} {w w' : Word} {h h' : Hash} :
    saltedPreimage s w h = saltedPreimage s' w' h' ↔ s = s' ∧ w = w' ∧ h = h' := by
  constructor
  · intro heq
    obtain ⟨hfront, hhash⟩ := Array.append_inj heq (by simp)
    obtain ⟨hfront, hsalt⟩ := Array.append_inj hfront (by simp)
    obtain ⟨-, hsender⟩ := Array.append_inj hfront rfl
    exact ⟨Address.bytes_inj.1 hsender, Word.toBytes_inj.1 hsalt, Hash.bytes_inj.1 hhash⟩
  · rintro ⟨rfl, rfl, rfl⟩
    rfl

theorem head_saltedPreimage (s : Address) (w : Word) (h : Hash) :
    (saltedPreimage s w h)[0]? = some 0xff := by
  simp [saltedPreimage]

/-- A list that begins with `0xff` has a longer length than a nonce makes it. -/
theorem preimage_ne_saltedPreimage (s s' : Address) (n : UInt64) (w : Word) (h : Hash) :
    preimage s n ≠ saltedPreimage s' w h := by
  intro heq
  obtain ⟨length, hlength, hhead⟩ := head_preimage s n
  rw [heq, head_saltedPreimage] at hhead
  have hbyte := congrArg UInt8.toNat (Option.some.inj hhead)
  rw [UInt8.toNat_ofNat_of_lt' (show _ < 256 by omega)] at hbyte
  have hff : (0xff : UInt8).toNat = 255 := rfl
  omega

structure Laid (code : Bytes) (sender : Address) (salt : Word) (hash : Hash) : Prop where
  size : code.size = 85
  head : code[0]? = some 0xff
  sender : code.window 1 20 = sender.bytes
  salt : code.window 21 32 = salt.toBytes
  hash : code.window 53 32 = hash.bytes

theorem laid_saltedPreimage (s : Address) (w : Word) (h : Hash) :
    Laid (saltedPreimage s w h) s w h where
  size := by simp [saltedPreimage]
  head := head_saltedPreimage s w h
  sender := by
    have hsplit : saltedPreimage s w h = #[0xff] ++ (s.bytes ++ (w.toBytes ++ h.bytes)) := by
      simp [saltedPreimage]
    rw [hsplit]
    exact Bytes.window_append rfl s.size_bytes _
  salt := by
    have hsplit : saltedPreimage s w h = #[0xff] ++ s.bytes ++ (w.toBytes ++ h.bytes) := by
      simp [saltedPreimage]
    rw [hsplit]
    exact Bytes.window_append (by simp) w.size_toBytes _
  hash := by
    have hsplit :
        saltedPreimage s w h = #[0xff] ++ s.bytes ++ w.toBytes ++ (h.bytes ++ #[]) := by
      simp [saltedPreimage]
    rw [hsplit]
    exact Bytes.window_append (by simp) h.size_bytes _

end Creation

open Creation

/-- The address of a plain creation is made of the hash of the one code of the list of the sender
and the digits of the nonce, that of a salted creation of the hash of 85 bytes. The bytes tell the
sender and the nonce, or the sender, the salt and the hash of the init code, and which of the two
they are made for. -/
theorem preimages_distinct :
    (∀ (sender : Address) (nonce : UInt64),
      address sender nonce = addressOf (preimage sender nonce) ∧ sender.bytes.size = 20 ∧
      ∃ digits : Bytes, digits.Minimal nonce.toNat ∧ (digits = #[] ↔ nonce = 0) ∧
        ∀ code : Bytes, Rlp.list? code.toList = some [sender.bytes, digits] ↔
          code = preimage sender nonce) ∧
    (∀ (s s' : Address) (n n' : UInt64), preimage s n = preimage s' n' ↔ s = s' ∧ n = n') ∧
    (∀ (sender : Address) (salt : Word) (init : Bytes),
      saltedAddress sender salt init = addressOf (saltedPreimage sender salt (Keccak.hash init)) ∧
      Laid (saltedPreimage sender salt (Keccak.hash init)) sender salt (Keccak.hash init)) ∧
    (∀ (s s' : Address) (w w' : Word) (h h' : Hash),
      saltedPreimage s w h = saltedPreimage s' w' h' ↔ s = s' ∧ w = w' ∧ h = h') ∧
    ∀ (s s' : Address) (n : UInt64) (w : Word) (h : Hash),
      preimage s n ≠ saltedPreimage s' w h := by
  refine ⟨fun sender nonce => ⟨rfl, sender.size_bytes, Bytes.ofNatMinimal nonce.toNat,
    Bytes.minimal_iff.2 rfl, ?_, list?_preimage_iff sender nonce⟩, fun _ _ _ _ => preimage_inj,
    fun sender salt init => ⟨rfl, laid_saltedPreimage sender salt _⟩,
    fun _ _ _ _ _ _ => saltedPreimage_inj, preimage_ne_saltedPreimage⟩
  rw [← Array.size_eq_zero_iff, Bytes.size_ofNatMinimal, ← Nat.le_zero, Bytes.byteLength_le_iff,
    Nat.pow_zero, Nat.lt_one_iff, ← UInt64.toNat_inj]
  rfl

end SpeculativeEvm
