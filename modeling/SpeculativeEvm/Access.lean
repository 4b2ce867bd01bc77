import SpeculativeEvm.Address
import Std.Data.ExtTreeMap

/-!
Which accounts a run has touched. An access set keeps every access in program order and, beside
that log, the strongest kind of access for each account: once an account is written, reads of it
no longer change its kind.
-/

namespace SpeculativeEvm

inductive AccessKind
  | read
  | write
  deriving DecidableEq

/-- The stronger of two kinds. -/
def AccessKind.max : AccessKind → AccessKind → AccessKind
  | .read, k => k
  | .write, _ => .write

structure Access where
  address : Address
  kind : AccessKind
  deriving DecidableEq

structure AccessSet where
  kinds : Std.ExtTreeMap Address AccessKind
  log : Array Access

namespace AccessSet

def empty : AccessSet := ⟨∅, #[]⟩

/-- The strongest kind of access to an account. -/
def kindOf (s : AccessSet) (a : Address) : Option AccessKind :=
  s.kinds[a]?

def record (s : AccessSet) (access : Access) : AccessSet :=
  { kinds := s.kinds.insert access.address
      (match s.kinds[access.address]? with
        | some kind => kind.max access.kind
        | none => access.kind)
    log := s.log.push access }

def recordRead (s : AccessSet) (a : Address) : AccessSet :=
  s.record ⟨a, .read⟩

def recordWrite (s : AccessSet) (a : Address) : AccessSet :=
  s.record ⟨a, .write⟩

/-- The addresses with a given strongest kind, in ascending order. -/
def withKind (s : AccessSet) (kind : AccessKind) : List Address :=
  (s.kinds.toList.filter fun e => e.2 = kind).map Prod.fst

def reads (s : AccessSet) : List Address := s.withKind .read

def writes (s : AccessSet) : List Address := s.withKind .write

/-- The number of distinct accounts touched. -/
def size (s : AccessSet) : Nat := s.kinds.size

/-- Records another set's accesses after this one's. -/
def merge (s other : AccessSet) : AccessSet :=
  other.log.foldl record s

/-- Forgets every access. -/
def clear (s : AccessSet) : AccessSet := { s with kinds := ∅, log := #[] }

@[simp] theorem kindOf_empty (a : Address) : empty.kindOf a = none := by
  simp [empty, kindOf]

@[simp] theorem log_record (s : AccessSet) (access : Access) :
    (s.record access).log = s.log.push access := rfl

theorem kindOf_record (s : AccessSet) (access : Access) (a : Address) :
    (s.record access).kindOf a =
      if access.address = a then
        some (((s.kindOf a).map (AccessKind.max · access.kind)).getD access.kind)
      else s.kindOf a := by
  simp only [record, kindOf, Std.ExtTreeMap.getElem?_insert, Std.compare_eq_iff_eq]
  split
  · next h => subst h; cases s.kinds[access.address]? <;> rfl
  · rfl

end AccessSet

end SpeculativeEvm
