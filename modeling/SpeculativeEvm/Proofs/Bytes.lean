import Mathlib.Algebra.Group.Nat.Defs
import SpeculativeEvm.Address
import SpeculativeEvm.Hash

/-! Byte strings, by what stands at each place and by the number they denote. A string of a given
size is known from either, so the byte forms of addresses, hashes and words are different where
these are. -/

namespace SpeculativeEvm

namespace Bytes

/-- What holds of every number below 256 holds of every byte. -/
theorem of_fin {P : UInt8 → Prop} (h : ∀ n : Fin 256, P (UInt8.ofNat n)) (b : UInt8) : P b := by
  have hb := h ⟨b.toNat, b.toNat_lt⟩
  rwa [UInt8.ofNat_toNat] at hb

theorem at0_of_lt {bytes : Bytes} {i : Nat} (h : i < bytes.size) : bytes.at0 i = bytes[i] := by
  simp [at0, h]

theorem at0_of_size_le {bytes : Bytes} {i : Nat} (h : bytes.size ≤ i) : bytes.at0 i = 0 := by
  simp [at0, h]

theorem ext_at0 {a b : Bytes} (hs : a.size = b.size) (h : ∀ i < b.size, a.at0 i = b.at0 i) :
    a = b := by
  refine Array.ext hs fun i ha hb => ?_
  rw [← at0_of_lt ha, ← at0_of_lt hb]
  exact h i hb

theorem at0_replicate (n i : Nat) : at0 (Array.replicate n 0) i = 0 := by
  unfold at0
  rw [Array.getElem?_replicate]
  split <;> rfl

theorem at0_append (a b : Bytes) (i : Nat) :
    (a ++ b : Bytes).at0 i = if i < a.size then a.at0 i else b.at0 (i - a.size) := by
  unfold at0
  rw [Array.getElem?_append]
  split <;> rfl

theorem toNat_push (bytes : Bytes) (b : UInt8) :
    toNat (bytes.push b) = bytes.toNat * 256 + b.toNat := by
  simp [toNat]

theorem toNat_replicate (n : Nat) : toNat (Array.replicate n 0) = 0 := by
  induction n with
  | zero => rfl
  | succ n ih => rw [Array.replicate_succ, toNat_push, ih]; rfl

/-- Leading zeros do not change the number. -/
theorem toNat_replicate_append (n : Nat) (bytes : Bytes) :
    toNat (Array.replicate n 0 ++ bytes) = bytes.toNat := by
  have hzero := toNat_replicate n
  unfold toNat at hzero ⊢
  rw [Array.foldl_append, hzero]

theorem at0_ofNat {width i : Nat} (h : i < width) (n : Nat) :
    (ofNat width n).at0 i = UInt8.ofNat (n >>> (8 * (width - 1 - i))) := by
  simp [ofNat, at0, h]

/-- The last digits of a number are those of its last digits. -/
theorem window_ofNat {width size : Nat} (h : size ≤ width) (n : Nat) :
    (ofNat width n).window (width - size) size = ofNat size n := by
  refine ext_at0 (by simp) fun i hi => ?_
  rw [size_ofNat] at hi
  rw [at0_window, if_pos hi, at0_ofNat (by omega), at0_ofNat hi]
  congr 3
  omega

theorem ofNat_succ (width n : Nat) :
    ofNat (width + 1) n = (ofNat width (n / 256)).push (UInt8.ofNat n) := by
  unfold ofNat
  rw [Array.ofFn_succ]
  congr 1
  · congr 1
    funext i
    have hplace : 8 * (width + 1 - 1 - i) = 8 + 8 * (width - 1 - i) := by omega
    rw [Fin.val_castSucc, hplace, Nat.shiftRight_add, Nat.shiftRight_eq_div_pow n]
  · simp

theorem toNat_ofNat (width n : Nat) : toNat (ofNat width n) = n % 256 ^ width := by
  induction width generalizing n with
  | zero => simp [ofNat, toNat, Nat.mod_one]
  | succ width ih =>
    have hdigits : n % 256 ^ (width + 1) = n % 256 + 256 * (n / 256 % 256 ^ width) := by
      rw [Nat.pow_succ', Nat.mod_mul]
    rw [ofNat_succ, toNat_push, ih, UInt8.toNat_ofNat', hdigits]
    omega

/-- The bytes of a number without leading zeros fit in `width` exactly if the number does. -/
theorem byteLength_le_iff (width n : Nat) : byteLength n ≤ width ↔ n < 256 ^ width := by
  have hbits : 256 ^ width = 2 ^ (8 * width) := by rw [Nat.pow_mul]
  unfold byteLength
  by_cases h : n = 0
  · subst h
    exact iff_of_true (Nat.zero_le width) (Nat.pow_pos (by decide))
  · rw [if_neg h, hbits, ← Nat.log2_lt h]
    omega

theorem ofNat_toNat (bytes : Bytes) : ofNat bytes.size bytes.toNat = bytes := by
  generalize hsize : bytes.size = size
  induction size generalizing bytes with
  | zero =>
    rw [Array.eq_empty_of_size_eq_zero hsize]
    rfl
  | succ size ih =>
    obtain ⟨front, b, rfl⟩ := Array.eq_push_of_size_ne_zero (by omega : bytes.size ≠ 0)
    have hb := b.toNat_lt
    have hfront : (toNat front * 256 + b.toNat) / 256 = toNat front := by omega
    have hlast : UInt8.ofNat (toNat front * 256 + b.toNat) = b := by
      refine UInt8.toNat_inj.1 ?_
      rw [UInt8.toNat_ofNat']
      omega
    rw [Array.size_push] at hsize
    rw [ofNat_succ, toNat_push, hfront, hlast, ih front (by omega)]

theorem eq_of_toNat_eq {a b : Bytes} (hs : a.size = b.size) (h : a.toNat = b.toNat) : a = b := by
  rw [← ofNat_toNat a, ← ofNat_toNat b, hs, h]

theorem toNat_lt (bytes : Bytes) : bytes.toNat < 256 ^ bytes.size := by
  rw [← ofNat_toNat bytes, toNat_ofNat, size_ofNat]
  exact Nat.mod_lt _ (Nat.pow_pos (by decide))

theorem toNat_cons (b : UInt8) (bs : List UInt8) :
    toNat (b :: bs).toArray = b.toNat * 256 ^ bs.length + toNat bs.toArray := by
  have hplace (n : Nat) : bs.foldl (fun n b => n * 256 + b.toNat) n =
      n * 256 ^ bs.length + bs.foldl (fun n b => n * 256 + b.toNat) 0 := by
    induction bs generalizing n with
    | nil => simp
    | cons b bs ih =>
      rw [List.foldl_cons, ih, List.foldl_cons, ih (0 * 256 + b.toNat), List.length_cons,
        Nat.pow_succ', Nat.zero_mul, Nat.zero_add, Nat.add_mul, Nat.mul_assoc, Nat.add_assoc]
  simpa [toNat] using hplace b.toNat

/-- Byte strings of one size are ordered like their numbers, byte by byte. -/
theorem toList_lt_iff {a b : Bytes} (h : a.size = b.size) :
    a.toList < b.toList ↔ a.toNat < b.toNat := by
  obtain ⟨as⟩ := a
  obtain ⟨bs⟩ := b
  replace h : as.length = bs.length := h
  induction as generalizing bs with
  | nil =>
    obtain rfl : bs = [] := List.length_eq_zero_iff.1 h.symm
    simp
  | cons a as ih =>
    cases bs with
    | nil => cases h
    | cons b bs =>
      have hlength : as.length = bs.length := Nat.succ.inj h
      have hrest : as < bs ↔ toNat as.toArray < toNat bs.toArray := ih bs hlength
      have has := toNat_lt as.toArray
      have hbs := toNat_lt bs.toArray
      rw [List.size_toArray] at has hbs
      rw [← hlength] at hbs
      show a :: as < b :: bs ↔ toNat (a :: as).toArray < toNat (b :: bs).toArray
      rw [List.cons_lt_cons_iff, hrest, toNat_cons, toNat_cons, ← hlength, UInt8.lt_iff_toNat_lt,
        ← UInt8.toNat_inj]
      generalize 256 ^ as.length = place at has hbs ⊢
      rcases Nat.lt_trichotomy a.toNat b.toNat with hab | hab | hab
      · have hstep : (a.toNat + 1) * place ≤ b.toNat * place := Nat.mul_le_mul_right place hab
        rw [Nat.succ_mul] at hstep
        omega
      · rw [hab]
        omega
      · have hstep : (b.toNat + 1) * place ≤ a.toNat * place := Nat.mul_le_mul_right place hab
        rw [Nat.succ_mul] at hstep
        omega

theorem ofNat_inj {width m n : Nat} (hm : m < 256 ^ width) (hn : n < 256 ^ width) :
    ofNat width m = ofNat width n ↔ m = n := by
  refine ⟨fun h => ?_, fun h => h ▸ rfl⟩
  have hvalue := congrArg toNat h
  rwa [toNat_ofNat, toNat_ofNat, Nat.mod_eq_of_lt hm, Nat.mod_eq_of_lt hn] at hvalue

theorem window_append {start size : Nat} {a b : Bytes} (ha : a.size = start) (hb : b.size = size)
    (c : Bytes) : (a ++ (b ++ c) : Bytes).window start size = b := by
  refine ext_at0 (by rw [size_window, hb]) fun i hi => ?_
  rw [at0_window, if_pos (hb ▸ hi), at0_append, if_neg (by omega), at0_append,
    if_pos (by omega)]
  congr 1
  omega

end Bytes

theorem Address.bytes_inj {a b : Address} : a.bytes = b.bytes ↔ a = b := by
  rw [bytes, bytes, Bytes.ofNat_inj a.bits.isLt b.bits.isLt, BitVec.toNat_inj]
  exact ⟨fun h => congrArg mk h, fun h => h ▸ rfl⟩

theorem Hash.bytes_inj {a b : Hash} : a.bytes = b.bytes ↔ a = b := by
  rw [bytes, bytes, Bytes.ofNat_inj a.bits.isLt b.bits.isLt, BitVec.toNat_inj]
  exact ⟨fun h => congrArg mk h, fun h => h ▸ rfl⟩

theorem Word.toBytes_inj {v w : Word} : v.toBytes = w.toBytes ↔ v = w := by
  rw [toBytes, toBytes, Bytes.ofNat_inj v.isLt w.isLt, BitVec.toNat_inj]

@[simp] theorem Address.size_bytes (a : Address) : a.bytes.size = 20 := Bytes.size_ofNat 20 _

@[simp] theorem Hash.size_bytes (h : Hash) : h.bytes.size = 32 := Bytes.size_ofNat 32 _

@[simp] theorem Word.size_toBytes (w : Word) : w.toBytes.size = 32 := Bytes.size_ofNat 32 _

end SpeculativeEvm
