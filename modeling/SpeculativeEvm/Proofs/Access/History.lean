import Mathlib.Data.List.Perm.Lattice
import Mathlib.Logic.Function.Basic
import SpeculativeEvm.Proofs.Access.Dependency

/-! Access sets that are filled side by side. Each keeps a log and, beside it, a kind for each
account, and every operation changes both. Whatever the operations were, the log is what they have
told, and all that the set answers can be read off the log, where the order of the accesses does not
matter. -/

namespace SpeculativeEvm

namespace AccessKind

/-- The first kind is not stronger than the second; to have none is the weakest of all. -/
def AtMost (k l : Option AccessKind) : Prop := k.merge max l = l

theorem atMost_refl (k : Option AccessKind) : AtMost k k := by
  rcases k with - | - | - <;> rfl

theorem atMost_merge (k l : Option AccessKind) : AtMost k (k.merge max l) := by
  rcases k with - | - | - <;> rcases l with - | - | - <;> rfl

theorem forall_iff {p : AccessKind → Prop} : (∀ k, p k) ↔ p .read ∧ p .write :=
  ⟨fun h => ⟨h _, h _⟩, fun h k => by cases k; exacts [h.1, h.2]⟩

/-- A kind is known from whether there is one and whether it is a write. -/
theorem eq_of_iff {k l : Option AccessKind} (hsome : k.isSome ↔ l.isSome)
    (hwrite : k = some .write ↔ l = some .write) : k = l := by
  rcases k with - | - | - <;> rcases l with - | - | - <;> simp_all

theorem merge_eq_write {k l : Option AccessKind} :
    k.merge max l = some .write ↔ k = some .write ∨ l = some .write := by
  rcases k with - | - | - <;> rcases l with - | - | - <;> simp [max]

end AccessKind

namespace AccessSet

open AccessKind (AtMost)

/-- The kind is the strongest one of the accesses that a log has to an account, and there is none
if it has no access to the account. -/
def IsStrongest (log : List Access) (a : Address) : Option AccessKind → Prop
  | none => ∀ kind, ⟨a, kind⟩ ∉ log
  | some kind => ⟨a, kind⟩ ∈ log ∧ ∀ other, ⟨a, other⟩ ∈ log → AtMost (some other) (some kind)

section Strongest

variable {log : List Access} {a : Address}

theorem isStrongest_none_iff :
    IsStrongest log a none ↔ ⟨a, .read⟩ ∉ log ∧ ⟨a, .write⟩ ∉ log :=
  AccessKind.forall_iff

theorem isStrongest_read_iff :
    IsStrongest log a (some .read) ↔ ⟨a, .read⟩ ∈ log ∧ ⟨a, .write⟩ ∉ log := by
  simp [IsStrongest, AccessKind.forall_iff, AtMost, AccessKind.max]

theorem isStrongest_write_iff : IsStrongest log a (some .write) ↔ ⟨a, .write⟩ ∈ log := by
  simp [IsStrongest, AccessKind.forall_iff, AtMost, AccessKind.max]

end Strongest

variable {s t : AccessSet} {a : Address}

theorem kindOf_eq_none_iff (h : s.Summarizes) :
    s.kindOf a = none ↔ ¬ s.Read a ∧ ¬ s.Wrote a := by
  rw [← not_or, ← accessed_iff, ← h.touches, Touches, Option.isSome_iff_ne_none, not_not]

theorem kindOf_eq_iff (h : s.Summarizes) {kind : Option AccessKind} :
    s.kindOf a = kind ↔ IsStrongest s.log.toList a kind := by
  rcases kind with - | - | -
  · rw [kindOf_eq_none_iff h, isStrongest_none_iff, Array.mem_toList_iff, Array.mem_toList_iff]
    rfl
  · rw [h.read, isStrongest_read_iff, Array.mem_toList_iff, Array.mem_toList_iff]
    rfl
  · rw [h.write, isStrongest_write_iff, Array.mem_toList_iff]
    rfl

theorem kindOf_merge (s : AccessSet) (ht : t.Summarizes) (a : Address) :
    (s.merge t).kindOf a = (s.kindOf a).merge .max (t.kindOf a) := by
  refine AccessKind.eq_of_iff ?_ ?_
  · have htouch := (touches_merge s t a).trans (or_congr_right (ht.touches a).symm)
    simpa [Touches] using htouch
  · rw [kindOf_merge_eq_write, ← ht.write, AccessKind.merge_eq_write]

theorem merge_assoc (s t u : AccessSet) : (s.merge t).merge u = s.merge (t.merge u) := by
  rw [merge_eq_foldl s (t.merge u), log_merge, Array.toList_append, List.foldl_append,
    ← merge_eq_foldl, ← merge_eq_foldl]

theorem kindOf_record_atMost (s : AccessSet) (access : Access) (a : Address) :
    AtMost (s.kindOf a) ((s.record access).kindOf a) := by
  rw [kindOf_record]
  by_cases h : access.address = a
  · rw [if_pos h]
    cases hk : s.kindOf a with
    | none => exact AccessKind.atMost_merge none (some access.kind)
    | some kind => exact AccessKind.atMost_merge (some kind) (some access.kind)
  · rw [if_neg h]
    exact AccessKind.atMost_refl _

/-- What a set answers is the same for every order of its log. -/
theorem kinds_eq_of_perm (hs : s.Summarizes) (ht : t.Summarizes)
    (h : s.log.toList.Perm t.log.toList) : s.kinds = t.kinds := by
  refine Std.ExtTreeMap.ext_getElem? fun a => ?_
  change s.kindOf a = t.kindOf a
  rw [kindOf_eq_iff hs]
  have hkind := (kindOf_eq_iff ht).1 (rfl : t.kindOf a = t.kindOf a)
  cases hk : t.kindOf a with
  | none =>
    rw [hk] at hkind
    exact fun kind hmem => hkind kind (h.mem_iff.1 hmem)
  | some strongest =>
    rw [hk] at hkind
    exact ⟨h.mem_iff.2 hkind.1, fun kind hmem => hkind.2 kind (h.mem_iff.1 hmem)⟩

structure Answers (s : AccessSet) (log : List Access) : Prop where
  accesses : s.log.toList = log
  kind (a : Address) : IsStrongest log a (s.kindOf a)
  reads (a : Address) : a ∈ s.reads ↔ IsStrongest log a (some .read)
  writes (a : Address) : a ∈ s.writes ↔ IsStrongest log a (some .write)
  /-- Reads and writes together are the accounts of the log, each of them once. -/
  partition : (s.reads ++ s.writes).Perm (log.map Access.address).dedup
  size : s.size = (log.map Access.address).dedup.length

theorem nodup_reads_writes (s : AccessSet) : (s.reads ++ s.writes).Nodup := by
  refine (s.nodup_withKind .read).append (s.nodup_withKind .write) fun a hread hwrite => ?_
  have hkind := (mem_withKind s).1 hread
  rw [(mem_withKind s).1 hwrite] at hkind
  cases hkind

theorem mem_addresses_log_iff : a ∈ s.log.toList.map Access.address ↔ s.Accessed a := by
  simp [Accessed]

theorem mem_reads_writes_iff : a ∈ s.reads ++ s.writes ↔ s.Touches a := by
  rw [List.mem_append, reads, writes, mem_withKind, mem_withKind, Touches]
  rcases s.kindOf a with - | - | - <;> simp

theorem size_eq_length (s : AccessSet) : s.size = (s.reads ++ s.writes).length := by
  have hperm : s.kinds.keys.Perm (s.reads ++ s.writes) := by
    rw [List.perm_ext_iff_of_nodup Std.ExtTreeMap.nodup_keys s.nodup_reads_writes]
    intro a
    rw [mem_reads_writes_iff, Std.ExtTreeMap.mem_keys, Std.ExtTreeMap.mem_iff_isSome_getElem?]
    rfl
  rw [← hperm.length_eq, Std.ExtTreeMap.length_keys]
  rfl

theorem Summarizes.answers (h : s.Summarizes) : s.Answers s.log.toList := by
  have hperm : (s.reads ++ s.writes).Perm (s.log.toList.map Access.address).dedup := by
    rw [List.perm_ext_iff_of_nodup s.nodup_reads_writes (List.nodup_dedup _)]
    intro a
    rw [mem_reads_writes_iff, h.touches, List.mem_dedup, mem_addresses_log_iff]
  exact {
    accesses := rfl
    kind := fun a => (kindOf_eq_iff h).1 rfl
    reads := fun a => (mem_withKind s).trans (kindOf_eq_iff h)
    writes := fun a => (mem_withKind s).trans (kindOf_eq_iff h)
    partition := hperm
    size := by rw [size_eq_length, hperm.length_eq] }

inductive Op (ι : Type)
  | read (i : ι) (a : Address)
  | write (i : ι) (a : Address)
  /-- Merges the set `j` into the set `i`. -/
  | merge (i j : ι)
  | clear (i : ι)

variable {ι : Type} [DecidableEq ι]

def Op.perform (sets : ι → AccessSet) : Op ι → ι → AccessSet
  | .read i a => Function.update sets i ((sets i).recordRead a)
  | .write i a => Function.update sets i ((sets i).recordWrite a)
  | .merge i j => Function.update sets i ((sets i).merge (sets j))
  | .clear i => Function.update sets i (sets i).clear

/-- What becomes of the logs alone. -/
def Op.tell (logs : ι → List Access) : Op ι → ι → List Access
  | .read i a => Function.update logs i (logs i ++ [⟨a, .read⟩])
  | .write i a => Function.update logs i (logs i ++ [⟨a, .write⟩])
  | .merge i j => Function.update logs i (logs i ++ logs j)
  | .clear i => Function.update logs i []

def performed (ops : List (Op ι)) : ι → AccessSet := ops.foldl Op.perform fun _ => empty

def told (ops : List (Op ι)) : ι → List Access := ops.foldl Op.tell fun _ => []

def HaveLogs (sets : ι → AccessSet) (logs : ι → List Access) : Prop :=
  ∀ i, (sets i).Built ∧ (sets i).log.toList = logs i

section Run

variable {sets : ι → AccessSet} {logs : ι → List Access}

theorem HaveLogs.update (h : HaveLogs sets logs) (i : ι) {s : AccessSet} {log : List Access}
    (hs : s.Built) (hlog : s.log.toList = log) :
    HaveLogs (Function.update sets i s) (Function.update logs i log) := by
  intro j
  by_cases hj : j = i
  · subst hj
    simpa using ⟨hs, hlog⟩
  · simpa [hj] using h j

theorem HaveLogs.perform (h : HaveLogs sets logs) (op : Op ι) :
    HaveLogs (op.perform sets) (op.tell logs) := by
  cases op with
  | read i a =>
    refine h.update i ((h i).1.record _) ?_
    rw [← (h i).2, recordRead, log_record, Array.toList_push]
  | write i a =>
    refine h.update i ((h i).1.record _) ?_
    rw [← (h i).2, recordWrite, log_record, Array.toList_push]
  | merge i j =>
    refine h.update i ((h i).1.merge (h j).1) ?_
    rw [← (h i).2, ← (h j).2, log_merge, Array.toList_append]
  | clear i => exact h.update i (h i).1.clear rfl

theorem HaveLogs.foldl_perform (h : HaveLogs sets logs) (ops : List (Op ι)) :
    HaveLogs (ops.foldl Op.perform sets) (ops.foldl Op.tell logs) := by
  induction ops generalizing sets logs with
  | nil => exact h
  | cons op ops ih => exact ih (h.perform op)

theorem haveLogs_performed (ops : List (Op ι)) : HaveLogs (performed ops) (told ops) :=
  HaveLogs.foldl_perform (fun _ => ⟨.empty, rfl⟩) ops

/-- Only what is cleared can lose a kind. -/
theorem HaveLogs.kindOf_atMost (h : HaveLogs sets logs) {op : Op ι} {i : ι} (hop : op ≠ .clear i)
    (a : Address) : AtMost ((sets i).kindOf a) ((op.perform sets i).kindOf a) := by
  have hself := AccessKind.atMost_refl ((sets i).kindOf a)
  cases op with
  | read j b =>
    by_cases hij : i = j
    · subst hij
      simpa [Op.perform, recordRead] using kindOf_record_atMost (sets i) ⟨b, .read⟩ a
    · simpa [Op.perform, hij] using hself
  | write j b =>
    by_cases hij : i = j
    · subst hij
      simpa [Op.perform, recordWrite] using kindOf_record_atMost (sets i) ⟨b, .write⟩ a
    · simpa [Op.perform, hij] using hself
  | merge j k =>
    by_cases hij : i = j
    · subst hij
      have hmerge := AccessKind.atMost_merge ((sets i).kindOf a) ((sets k).kindOf a)
      rw [← kindOf_merge _ (h k).1.summarizes] at hmerge
      simpa [Op.perform] using hmerge
    · simpa [Op.perform, hij] using hself
  | clear j =>
    have hij : i ≠ j := fun h => hop (h ▸ rfl)
    simpa [Op.perform, hij] using hself

end Run

end AccessSet

open AccessSet

/-- Whatever operations have led to them, access sets answer what their logs say, and the logs are
what the operations tell. Merging appends the one log to the other and takes the stronger of the two
kinds, so that no kind is lost unless the set is cleared, and sets can be merged in any grouping.
Sets whose logs differ in their order only give the same answers. -/
theorem answers_follow_logs {ι : Type} [DecidableEq ι] (ops : List (Op ι)) :
    (∀ i, (performed ops i).Answers (told ops i)) ∧
    (∀ i j, ((performed ops i).merge (performed ops j)).Answers (told ops i ++ told ops j) ∧
      (∀ a, ((performed ops i).merge (performed ops j)).kindOf a =
        ((performed ops i).kindOf a).merge .max ((performed ops j).kindOf a)) ∧
      ∀ k, ((performed ops i).merge (performed ops j)).merge (performed ops k) =
        (performed ops i).merge ((performed ops j).merge (performed ops k))) ∧
    (∀ op i a, op ≠ Op.clear i →
      AccessKind.AtMost ((performed ops i).kindOf a) ((performed (ops ++ [op]) i).kindOf a)) ∧
    ∀ (ops' : List (Op ι)) (i j : ι), (told ops i).Perm (told ops' j) →
      (performed ops i).size = (performed ops' j).size ∧
      (performed ops i).reads = (performed ops' j).reads ∧
      (performed ops i).writes = (performed ops' j).writes ∧
      ∀ a, (performed ops i).kindOf a = (performed ops' j).kindOf a := by
  have hlogs := haveLogs_performed ops
  refine ⟨fun i => ?_, fun i j => ⟨?_, fun a => ?_, fun k => ?_⟩, fun op i a hop => ?_,
    fun ops' i j hperm => ?_⟩
  · rw [← (hlogs i).2]
    exact (hlogs i).1.summarizes.answers
  · rw [← (hlogs i).2, ← (hlogs j).2, ← Array.toList_append, ← log_merge]
    exact ((hlogs i).1.merge (hlogs j).1).summarizes.answers
  · exact kindOf_merge _ (hlogs j).1.summarizes a
  · exact merge_assoc _ _ _
  · rw [performed, performed, List.foldl_append]
    exact hlogs.kindOf_atMost hop a
  · obtain ⟨hs, hslog⟩ := hlogs i
    obtain ⟨ht, htlog⟩ := haveLogs_performed ops' j
    rw [← hslog, ← htlog] at hperm
    have hkinds := kinds_eq_of_perm hs.summarizes ht.summarizes hperm
    unfold size reads writes withKind kindOf
    rw [hkinds]
    exact ⟨rfl, rfl, rfl, fun _ => rfl⟩

def mirrored : List (Op (Fin 3)) :=
  [.write 0 ⟨1⟩, .read 0 ⟨1⟩, .read 1 ⟨2⟩, .merge 0 1,
    .write 2 ⟨2⟩, .clear 2, .read 2 ⟨2⟩, .read 2 ⟨1⟩, .write 2 ⟨1⟩]

/-- Account 1 is written in both sets, and another read of it leaves it so. -/
theorem mirrored_same_answers :
    (told mirrored 0).Perm (told mirrored 2) ∧
    (performed mirrored 0).reads = (performed mirrored 2).reads ∧
    (performed mirrored 0).writes = (performed mirrored 2).writes ∧
    Op.read 0 ⟨1⟩ ≠ Op.clear (0 : Fin 3) ∧
    AccessKind.AtMost (some .write) ((performed (mirrored ++ [.read 0 ⟨1⟩]) 0).kindOf ⟨1⟩) := by
  have hperm : (told mirrored 0).Perm (told mirrored 2) := by decide
  have hwrite : (performed mirrored 0).kindOf ⟨1⟩ = some .write := by decide
  obtain ⟨-, -, hkept, hsame⟩ := answers_follow_logs mirrored
  obtain ⟨-, hreads, hwrites, -⟩ := hsame mirrored 0 2 hperm
  have hafter := hkept (.read 0 ⟨1⟩) 0 ⟨1⟩ nofun
  rw [hwrite] at hafter
  exact ⟨hperm, hreads, hwrites, nofun, hafter⟩

end SpeculativeEvm
