import SpeculativeEvm.Proofs.Access.Conflict

/-! Reads of what another set writes, against what the logs say. An account has one kind, and a
write hides the reads of the same account, so a read of what the other set writes is told only of an
account that the set itself leaves unwritten. What is hidden is told as a write of what the other
set writes: the two answers taken together are never lost by recording more. -/

namespace SpeculativeEvm

namespace AccessSet

variable {s t u : AccessSet} {a : Address} {access : Access}

def Read (s : AccessSet) (a : Address) : Prop := ⟨a, .read⟩ ∈ s.log

theorem accessed_iff : s.Accessed a ↔ s.Read a ∨ s.Wrote a := by
  constructor
  · rintro ⟨⟨b, kind⟩, hmem, rfl⟩
    cases kind with
    | read => exact .inl hmem
    | write => exact .inr hmem
  · rintro (h | h)
    · exact ⟨_, h, rfl⟩
    · exact ⟨_, h, rfl⟩

/-- The kind of an account is a read if the log reads it and has no write of it. -/
theorem Summarizes.read (h : s.Summarizes) (a : Address) :
    s.kindOf a = some .read ↔ s.Read a ∧ ¬ s.Wrote a := by
  have htouch : (s.kindOf a).isSome ↔ s.Read a ∨ s.Wrote a := (h.touches a).trans accessed_iff
  rw [← h.write a] at htouch ⊢
  generalize s.kindOf a = kind at htouch ⊢
  rcases kind with - | - | -
  · simp only [Option.isSome_none, Bool.false_eq_true, reduceCtorEq, or_false, false_iff] at htouch
    simp [htouch]
  · simpa using htouch
  · simp

theorem read_record : (s.record access).Read a ↔ s.Read a ∨ access = ⟨a, .read⟩ := by
  rw [Read, log_record, Array.mem_push, eq_comm (a := access)]
  rfl

theorem wrote_record : (s.record access).Wrote a ↔ s.Wrote a ∨ access = ⟨a, .write⟩ := by
  rw [Wrote, log_record, Array.mem_push, eq_comm (a := access)]
  rfl

theorem read_merge : (s.merge t).Read a ↔ s.Read a ∨ t.Read a := by
  rw [Read, log_merge, Array.mem_append]
  rfl

theorem wrote_merge : (s.merge t).Wrote a ↔ s.Wrote a ∨ t.Wrote a := by
  rw [Wrote, log_merge, Array.mem_append]
  rfl

theorem readsWritten_iff (hs : s.Summarizes) (ht : t.Summarizes) :
    s.readsWritten t = true ↔ ∃ a, (s.Read a ∧ ¬ s.Wrote a) ∧ t.Wrote a := by
  rw [readsWritten, reads, any_withKind_iff, sharedAs_ne_nil_iff]
  simp only [hs.read, ht.write]

theorem writesWritten_iff (hs : s.Summarizes) (ht : t.Summarizes) :
    s.writesWritten t = true ↔ ∃ a, s.Wrote a ∧ t.Wrote a := by
  rw [writesWritten, writes, any_withKind_iff, sharedAs_ne_nil_iff]
  simp only [hs.write, ht.write]

/-- An account that a set touches and another one writes is told as read or as written. -/
theorem readsWritten_or_writesWritten_iff (hs : s.Summarizes) (ht : t.Summarizes) :
    s.readsWritten t = true ∨ s.writesWritten t = true ↔ ∃ a, s.Accessed a ∧ t.Wrote a := by
  rw [readsWritten_iff hs ht, writesWritten_iff hs ht, ← exists_or]
  refine exists_congr fun a => ?_
  rw [accessed_iff]
  tauto

end AccessSet

open AccessSet

/-- What the query for reads of written accounts tells of the logs, whatever recording, merging and
clearing has led to the two sets. A read that it leaves out is of an account that both sets write.
Recording an access makes a true answer false if it is a write of the one account the answer rests
on, and merging does if what is merged in writes all of these accounts. -/
theorem readsWritten_of_logs {s t : AccessSet} (hs : Built s) (ht : Built t) :
    (s.readsWritten t = true ↔ ∃ a, (s.Read a ∧ ¬ s.Wrote a) ∧ t.Wrote a) ∧
    ((∃ a, s.Read a ∧ t.Wrote a) ↔
      s.readsWritten t = true ∨ ∃ a, s.Read a ∧ s.Wrote a ∧ t.Wrote a) ∧
    (s.readsWritten t = true → ∀ access, (s.record access).readsWritten t = false ↔
      ∀ a, s.Read a → ¬ s.Wrote a → t.Wrote a → access = ⟨a, .write⟩) ∧
    (∀ u, Built u → ((s.merge u).readsWritten t = true ↔
      ∃ a, ((s.Read a ∨ u.Read a) ∧ ¬ s.Wrote a ∧ ¬ u.Wrote a) ∧ t.Wrote a)) ∧
    ((∃ a, s.Read a ∧ t.Wrote a) → ∀ u, Built u →
      (s.merge u).readsWritten t = true ∨ (s.merge u).writesWritten t = true) := by
  have hs' := hs.summarizes
  have ht' := ht.summarizes
  refine ⟨readsWritten_iff hs' ht', ?_, fun hread access => ?_, fun u hu => ?_,
    fun ⟨a, hread, hwrote⟩ u hu => ?_⟩
  · rw [readsWritten_iff hs' ht', ← exists_or]
    refine exists_congr fun a => ?_
    tauto
  · obtain ⟨b, ⟨hb, hbw⟩, hbt⟩ := (readsWritten_iff hs' ht').1 hread
    rw [Bool.eq_false_iff, Ne, readsWritten_iff (hs'.record access) ht', not_exists]
    simp only [read_record, wrote_record]
    constructor
    · intro h a ha haw hat
      by_contra hne
      exact h a ⟨⟨.inl ha, fun hw => hw.elim haw hne⟩, hat⟩
    · rintro h a ⟨⟨ha, haw⟩, hat⟩
      -- the access is the write of `b`, so it is no read
      have haccess := h b hb hbw hbt
      obtain ⟨hnot, hne⟩ := not_or.1 haw
      rcases ha with ha | ha
      · exact hne (h a ha hnot hat)
      · cases haccess.symm.trans ha
  · rw [readsWritten_iff (hs'.merge u) ht']
    simp only [read_merge, wrote_merge, not_or]
  · rw [readsWritten_or_writesWritten_iff (hs'.merge u) ht']
    exact ⟨a, accessed_iff.2 (.inl (read_merge.2 (.inl hread))), hwrote⟩

def readingOne : AccessSet := (AccessSet.empty.recordRead ⟨1⟩).recordWrite ⟨2⟩

def writingOne : AccessSet := AccessSet.empty.recordWrite ⟨1⟩

/-- The read of account 1 is told until account 1 is written too. -/
theorem readingOne_hidden : readingOne.Built ∧ writingOne.Built ∧
    readingOne.readsWritten writingOne = true ∧
    (readingOne.recordWrite ⟨1⟩).readsWritten writingOne = false := by
  have hr : readingOne.Built := .record (.record .empty _) _
  have hw : writingOne.Built := .record .empty _
  have hread : readingOne.readsWritten writingOne = true := by decide
  obtain ⟨-, -, hrecord, -⟩ := readsWritten_of_logs hr hw
  refine ⟨hr, hw, hread, (hrecord hread ⟨⟨1⟩, .write⟩).2 fun a _ _ ha => ?_⟩
  have hmem : (⟨a, .write⟩ : Access) ∈ #[(⟨⟨1⟩, .write⟩ : Access)] := ha
  exact (Array.mem_singleton.1 hmem).symm

/-- Both logs have account 1, the one as read and the other as written, and the answer is no. It was
yes before account 1 was written as well. -/
theorem readingOne_missed :
    (readingOne.recordWrite ⟨1⟩).Built ∧ writingOne.Built ∧
    readingOne.readsWritten writingOne = true ∧
    (∃ a, (readingOne.recordWrite ⟨1⟩).Read a ∧ writingOne.Wrote a) ∧
    (readingOne.recordWrite ⟨1⟩).readsWritten writingOne = false := by
  have hread : (readingOne.recordWrite ⟨1⟩).Read ⟨1⟩ :=
    read_record.2 (.inl (read_record.2 (.inl (read_record.2 (.inr rfl)))))
  have hwrote : writingOne.Wrote ⟨1⟩ := wrote_record.2 (.inr rfl)
  have hbuilt : (readingOne.recordWrite ⟨1⟩).Built := .record (.record (.record .empty _) _) _
  exact ⟨hbuilt, .record .empty _, by decide, ⟨⟨1⟩, hread, hwrote⟩, by decide⟩

end SpeculativeEvm
