import Mathlib.Data.Set.Card
import SpeculativeEvm.Proofs.Access.Summary

/-! Conflicts between two access sets, against what their logs say. An account conflicts if both
logs have it and one of them has written it; every such account is in exactly one of the three
groups, the single queries tell which groups are empty, and the two sets see the same conflicts from
either side. -/

namespace SpeculativeEvm

namespace AccessSet

/-- Both logs have the account, and one of them has written it. -/
def Clash (s t : AccessSet) (a : Address) : Prop :=
  s.Accessed a ∧ t.Accessed a ∧ (s.Wrote a ∨ t.Wrote a)

variable {s t u : AccessSet} {own foreign : AccessKind} {a : Address}

theorem mem_sharedAs : a ∈ s.sharedAs t own foreign ↔
    s.kindOf a = some own ∧ t.kindOf a = some foreign := by
  simp [sharedAs, mem_withKind]

theorem sorted_withKind (s : AccessSet) (kind : AccessKind) :
    (s.withKind kind).Pairwise fun a b => compare a b = .lt := by
  rw [withKind, List.pairwise_map]
  exact s.kinds.ordered_keys_toList.filter _

theorem sorted_sharedAs (s t : AccessSet) (own foreign : AccessKind) :
    (s.sharedAs t own foreign).Pairwise fun a b => compare a b = .lt :=
  (s.sorted_withKind own).filter _

theorem nodup_withKind (s : AccessSet) (kind : AccessKind) : (s.withKind kind).Nodup :=
  (s.sorted_withKind kind).imp fun {a b} h hab => by simp [hab] at h

theorem nodup_sharedAs (s t : AccessSet) (own foreign : AccessKind) :
    (s.sharedAs t own foreign).Nodup :=
  (s.nodup_withKind own).filter _

/-- The accounts that two sets share as two kinds, seen from either set. -/
theorem sharedAs_comm (s t : AccessSet) (own foreign : AccessKind) :
    t.sharedAs s foreign own = s.sharedAs t own foreign := by
  have hperm : (t.sharedAs s foreign own).Perm (s.sharedAs t own foreign) := by
    rw [List.perm_ext_iff_of_nodup (nodup_sharedAs ..) (nodup_sharedAs ..)]
    intro a
    rw [mem_sharedAs, mem_sharedAs, and_comm]
  refine hperm.eq_of_pairwise ?_ (sorted_sharedAs ..) (sorted_sharedAs ..)
  intro a b _ _ hab hba
  exact absurd hba (Std.OrientedCmp.not_lt_of_lt hab)

theorem sharedAs_ne_nil_iff : s.sharedAs t own foreign ≠ [] ↔
    ∃ a, s.kindOf a = some own ∧ t.kindOf a = some foreign := by
  rw [Ne, sharedAs_eq_nil_iff]
  push Not
  rfl

theorem any_withKind_iff : (s.withKind own).any (fun a => t.kindOf a = some foreign) = true ↔
    s.sharedAs t own foreign ≠ [] := by
  rw [sharedAs_ne_nil_iff]
  simp [mem_withKind]

/-- Distinct groups have no account in common: a set has one kind for each account. -/
theorem disjoint_sharedAs {own' foreign' : AccessKind} (h : own ≠ own' ∨ foreign ≠ foreign') :
    (s.sharedAs t own foreign).Disjoint (s.sharedAs t own' foreign') := by
  intro a ha ha'
  obtain ⟨hs, ht⟩ := mem_sharedAs.1 ha
  obtain ⟨hs', ht'⟩ := mem_sharedAs.1 ha'
  rw [hs] at hs'
  rw [ht] at ht'
  rcases h with h | h
  · exact h (Option.some.inj hs')
  · exact h (Option.some.inj ht')

end AccessSet

namespace Conflicts

def addresses (c : Conflicts) : List Address :=
  c.readAfterWrite ++ c.writeAfterWrite ++ c.writeAfterRead

theorem total_eq_length (c : Conflicts) : c.total = c.addresses.length := by
  simp [total, addresses, Nat.add_assoc]

theorem any_iff (c : Conflicts) : c.any = true ↔ ∃ a, a ∈ c.addresses := by
  have hany : c.any = true ↔ c.addresses ≠ [] := by
    simp only [any, addresses, ne_eq, List.append_eq_nil_iff, Bool.not_eq_true',
      Bool.and_eq_false_iff, List.isEmpty_eq_false_iff]
    tauto
  rw [hany, Ne, List.eq_nil_iff_forall_not_mem]
  push Not
  rfl

end Conflicts

namespace AccessSet

variable {s t u : AccessSet} {a : Address}

/-- By kinds: both sets touch the account, and for one of them it is written. -/
theorem mem_addresses_iff : a ∈ (s.conflictsWith t).addresses ↔
    s.Touches a ∧ t.Touches a ∧ (s.kindOf a = some .write ∨ t.kindOf a = some .write) := by
  simp only [Conflicts.addresses, conflictsWith, List.mem_append, mem_sharedAs, Touches]
  rcases s.kindOf a with - | - | - <;> rcases t.kindOf a with - | - | - <;> simp

theorem nodup_addresses (s t : AccessSet) : (s.conflictsWith t).addresses.Nodup := by
  have hw : (s.sharedAs t .read .write ++ s.sharedAs t .write .write).Nodup :=
    (nodup_sharedAs ..).append (nodup_sharedAs ..) (disjoint_sharedAs (by decide))
  refine hw.append (nodup_sharedAs ..) (List.disjoint_append_left.2 ⟨?_, ?_⟩)
  · exact disjoint_sharedAs (by decide)
  · exact disjoint_sharedAs (by decide)

theorem mem_addresses_iff_clash (hs : s.Summarizes) (ht : t.Summarizes) :
    a ∈ (s.conflictsWith t).addresses ↔ s.Clash t a := by
  rw [mem_addresses_iff, hs.touches, ht.touches, hs.write, ht.write, Clash]

/-- To conflict with two sets in one is to conflict with either. -/
theorem mem_addresses_merge (ht : t.Summarizes) :
    a ∈ (u.conflictsWith (s.merge t)).addresses ↔
      a ∈ (u.conflictsWith s).addresses ∨ a ∈ (u.conflictsWith t).addresses := by
  simp only [mem_addresses_iff, touches_merge, kindOf_merge_eq_write, ht.touches, ht.write]
  -- a set touches what it writes
  have hs : s.kindOf a = some .write → s.Touches a := fun h => by simp [Touches, h]
  have hw : t.Wrote a → t.Accessed a := fun h => ⟨_, h, rfl⟩
  tauto

end AccessSet

open AccessSet

/-- What the queries of two access sets tell, whatever recording, merging and clearing has led to
them. -/
theorem conflicts_of_logs {s t : AccessSet} (hs : Built s) (ht : Built t) :
    let c := s.conflictsWith t
    (c.any = true ↔ ∃ a, s.Clash t a) ∧
    (c.readAfterWrite.Disjoint c.writeAfterWrite ∧ c.readAfterWrite.Disjoint c.writeAfterRead ∧
      c.writeAfterWrite.Disjoint c.writeAfterRead) ∧
    c.total = {a | s.Clash t a}.encard ∧
    (s.readsWritten t = true ↔ c.readAfterWrite ≠ []) ∧
    (s.writesWritten t = true ↔ c.writeAfterWrite ≠ []) ∧
    (s.writesRead t = true ↔ c.writeAfterRead ≠ []) ∧
    t.conflictsWith s = ⟨c.writeAfterRead, c.writeAfterWrite, c.readAfterWrite⟩ ∧
    ∀ u : AccessSet, (u.conflictsWith (s.merge t)).any = true ↔
      (u.conflictsWith s).any = true ∨ (u.conflictsWith t).any = true := by
  intro c
  have hclash (a : Address) : a ∈ c.addresses ↔ s.Clash t a :=
    mem_addresses_iff_clash hs.summarizes ht.summarizes
  refine ⟨?_, ⟨?_, ?_, ?_⟩, ?_, any_withKind_iff, any_withKind_iff, any_withKind_iff, ?_,
    fun u => ?_⟩
  · simp only [Conflicts.any_iff, hclash]
  · exact disjoint_sharedAs (by decide)
  · exact disjoint_sharedAs (by decide)
  · exact disjoint_sharedAs (by decide)
  · have hset : {a | s.Clash t a} = (c.addresses.toFinset : Set Address) := by
      ext a
      simp [hclash]
    rw [hset, Set.encard_coe_eq_coe_finsetCard,
      List.toFinset_card_of_nodup (nodup_addresses s t), Conflicts.total_eq_length]
  · simp only [c, conflictsWith, sharedAs_comm t s]
  · simp only [Conflicts.any_iff, mem_addresses_merge ht.summarizes, exists_or]

def readingFirst : AccessSet :=
  ((AccessSet.empty.recordRead ⟨1⟩).recordWrite ⟨2⟩).merge
    ((AccessSet.empty.recordWrite ⟨3⟩).recordRead ⟨3⟩)

def writingFirst : AccessSet :=
  (((AccessSet.empty.recordWrite ⟨4⟩).clear.recordWrite ⟨1⟩).recordWrite ⟨2⟩).recordRead ⟨3⟩

/-- One account in each group, and the groups of reads and writes exchanged from the other side. -/
theorem readingFirst_conflicts : readingFirst.Built ∧ writingFirst.Built ∧
    {a | readingFirst.Clash writingFirst a}.encard = 3 ∧
    writingFirst.conflictsWith readingFirst = ⟨[⟨3⟩], [⟨2⟩], [⟨1⟩]⟩ := by
  have hr : readingFirst.Built :=
    .merge (.record (.record .empty _) _) (.record (.record .empty _) _)
  have hw : writingFirst.Built :=
    .record (.record (.record (.clear (.record .empty _)) _) _) _
  obtain ⟨-, -, htotal, -, -, -, hswap, -⟩ := conflicts_of_logs hr hw
  refine ⟨hr, hw, htotal.symm.trans ?_, hswap.trans ?_⟩
  · decide
  · decide

end SpeculativeEvm
