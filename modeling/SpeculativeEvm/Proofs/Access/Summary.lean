import SpeculativeEvm.Proofs.Isolation

/-! An access set beside its log. However a set comes about, by recording, merging and clearing, the
kind it gives for an account is the strongest one that its log has of that account. -/

namespace SpeculativeEvm

namespace AccessSet

inductive Built : AccessSet → Prop
  | empty : Built .empty
  | record {s : AccessSet} (h : Built s) (access : Access) : Built (s.record access)
  | merge {s t : AccessSet} (hs : Built s) (ht : Built t) : Built (s.merge t)
  | clear {s : AccessSet} (h : Built s) : Built s.clear

def Accessed (s : AccessSet) (a : Address) : Prop := ∃ access ∈ s.log, access.address = a

def Wrote (s : AccessSet) (a : Address) : Prop := ⟨a, .write⟩ ∈ s.log

structure Summarizes (s : AccessSet) : Prop where
  touches (a : Address) : s.Touches a ↔ s.Accessed a
  write (a : Address) : s.kindOf a = some .write ↔ s.Wrote a

variable {s t : AccessSet} {a : Address}

theorem kindOf_record_eq_write (access : Access) : (s.record access).kindOf a = some .write ↔
    access = ⟨a, .write⟩ ∨ s.kindOf a = some .write := by
  obtain ⟨b, kind⟩ := access
  cases kind with
  | read => simpa [recordRead] using kindOf_recordRead_eq_write s b a
  | write => simpa [recordWrite] using kindOf_recordWrite_eq_write s b a

/-! Recording a whole log. -/

theorem touches_foldl_record (s : AccessSet) (l : List Access) (a : Address) :
    (l.foldl record s).Touches a ↔ s.Touches a ∨ ∃ access ∈ l, access.address = a := by
  induction l generalizing s with
  | nil => simp
  | cons access l ih =>
    simp only [List.foldl_cons, ih, touches_record, List.mem_cons, exists_eq_or_imp]
    tauto

theorem kindOf_foldl_record_eq_write (s : AccessSet) (l : List Access) (a : Address) :
    (l.foldl record s).kindOf a = some .write ↔ s.kindOf a = some .write ∨ ⟨a, .write⟩ ∈ l := by
  induction l generalizing s with
  | nil => simp
  | cons access l ih =>
    simp only [List.foldl_cons, ih, kindOf_record_eq_write, List.mem_cons, eq_comm (a := access)]
    tauto

theorem log_foldl_record (s : AccessSet) (l : List Access) :
    (l.foldl record s).log.toList = s.log.toList ++ l := by
  induction l generalizing s with
  | nil => simp
  | cons access l ih => simp [ih]

theorem merge_eq_foldl (s t : AccessSet) : s.merge t = t.log.toList.foldl record s := by
  rw [merge, Array.foldl_toList]

theorem log_merge (s t : AccessSet) : (s.merge t).log = s.log ++ t.log := by
  apply Array.ext'
  rw [merge_eq_foldl, log_foldl_record, Array.toList_append]

theorem touches_merge (s t : AccessSet) (a : Address) :
    (s.merge t).Touches a ↔ s.Touches a ∨ t.Accessed a := by
  rw [merge_eq_foldl, touches_foldl_record]
  simp [Accessed]

theorem kindOf_merge_eq_write (s t : AccessSet) (a : Address) :
    (s.merge t).kindOf a = some .write ↔ s.kindOf a = some .write ∨ t.Wrote a := by
  rw [merge_eq_foldl, kindOf_foldl_record_eq_write]
  simp [Wrote]

namespace Summarizes

theorem empty : Summarizes .empty where
  touches a := by simp [Touches, Accessed, AccessSet.empty, kindOf]
  write a := by simp [Wrote, AccessSet.empty, kindOf]

theorem record (h : Summarizes s) (access : Access) : Summarizes (s.record access) where
  touches a := by
    simp only [touches_record, h.touches, Accessed, log_record, Array.mem_push]
    aesop
  write a := by
    simp only [kindOf_record_eq_write, h.write, Wrote, log_record, Array.mem_push]
    aesop

theorem merge (h : Summarizes s) (t : AccessSet) : Summarizes (s.merge t) where
  touches a := by
    simp only [touches_merge, h.touches, Accessed, log_merge, Array.mem_append, or_and_right,
      exists_or]
  write a := by
    simp only [kindOf_merge_eq_write, h.write, Wrote, log_merge, Array.mem_append]

end Summarizes

theorem Built.summarizes (h : Built s) : Summarizes s := by
  induction h with
  | empty => exact .empty
  | record _ access ih => exact ih.record access
  | merge _ _ ih _ => exact ih.merge _
  | clear => exact .empty

end AccessSet

end SpeculativeEvm
