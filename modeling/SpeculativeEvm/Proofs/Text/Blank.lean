import Mathlib.Data.List.Basic
import Mathlib.Data.List.TakeWhile
import SpeculativeEvm.Text.Blank

/-! What trimming leaves of a text: the part between white space at either end that has none at its
own ends. Every text has one such part. -/

namespace SpeculativeEvm.Text

structure Trimmed (cs inner : List Char) : Prop where
  between : ∃ before after, cs = before ++ inner ++ after ∧
    (∀ c ∈ before, isBlank c = true) ∧ ∀ c ∈ after, isBlank c = true
  head : ∀ c ∈ inner.head?, isBlank c = false
  last : ∀ c ∈ inner.getLast?, isBlank c = false

theorem head_dropWhile (p : Char → Bool) (cs : List Char) :
    ∀ c ∈ (cs.dropWhile p).head?, p c = false := by
  intro c hc
  have h := List.head?_dropWhile_not p cs
  rw [hc] at h
  simpa using h

theorem trimmed_trimChars (cs : List Char) : Trimmed cs (trimChars cs) := by
  have hleft := List.takeWhile_append_dropWhile (p := isBlank) (l := cs)
  generalize hrest : cs.dropWhile isBlank = rest at hleft
  have hright := List.takeWhile_append_dropWhile (p := isBlank) (l := rest.reverse)
  have htrim : trimChars cs = (rest.reverse.dropWhile isBlank).reverse := by rw [trimChars, hrest]
  have hsplit : rest = trimChars cs ++ (rest.reverse.takeWhile isBlank).reverse := by
    rw [htrim, ← List.reverse_append, hright, List.reverse_reverse]
  refine ⟨⟨cs.takeWhile isBlank, (rest.reverse.takeWhile isBlank).reverse, ?_, ?_, ?_⟩, ?_, ?_⟩
  · rw [List.append_assoc, ← hsplit, hleft]
  · exact fun c hc => List.mem_takeWhile_imp hc
  · exact fun c hc => List.mem_takeWhile_imp (List.mem_reverse.1 hc)
  · intro c hc
    refine head_dropWhile isBlank cs c ?_
    rw [hrest, hsplit]
    exact List.mem_head?_append_of_mem_head? hc
  · intro c hc
    rw [htrim, List.getLast?_reverse] at hc
    exact head_dropWhile isBlank _ c hc

theorem trimmed_iff {cs inner : List Char} : Trimmed cs inner ↔ inner = trimChars cs := by
  refine ⟨?_, fun h => h ▸ trimmed_trimChars cs⟩
  rintro ⟨⟨before, after, rfl, hbefore, hafter⟩, hhead, hlast⟩
  have hreverse : ∀ c ∈ after.reverse, isBlank c = true := fun c hc =>
    hafter c (List.mem_reverse.1 hc)
  rw [trimChars, List.append_assoc, List.dropWhile_append_of_pos hbefore]
  cases inner with
  | nil =>
    have hnone : after.dropWhile isBlank = [] := List.dropWhile_eq_nil_iff.2 hafter
    rw [List.nil_append, hnone]
    rfl
  | cons c inner =>
    have hstart : (c :: inner ++ after).dropWhile isBlank = c :: inner ++ after :=
      List.dropWhile_cons_of_neg (by simp [hhead c rfl])
    have hstop : (c :: inner).reverse.dropWhile isBlank = (c :: inner).reverse := by
      apply List.dropWhile_eq_self_iff.2
      intro hpos
      have hfirst : (c :: inner).reverse[0] ∈ (c :: inner).getLast? := by
        rw [← List.head?_reverse, List.head?_eq_getElem?, List.getElem?_eq_getElem hpos]
        rfl
      rw [hlast _ hfirst]
      exact Bool.false_ne_true
    rw [hstart, List.reverse_append, List.dropWhile_append_of_pos hreverse, hstop,
      List.reverse_reverse]

theorem toList_trim (s : String) : (trim s).toList = trimChars s.toList := String.toList_ofList

end SpeculativeEvm.Text
