import SpeculativeEvm.Access

/-!
Conflicts between two access sets: accounts that both touched and at least one wrote, grouped by
the strongest access on either side.
-/

namespace SpeculativeEvm

/-- Conflicting addresses by group, each in ascending order. -/
structure Conflicts where
  readAfterWrite : List Address
  writeAfterWrite : List Address
  writeAfterRead : List Address
  deriving DecidableEq

namespace AccessSet

/-- The addresses with kind `own` here and kind `foreign` in the other set. -/
def sharedAs (s other : AccessSet) (own foreign : AccessKind) : List Address :=
  (s.withKind own).filter fun a => other.kindOf a = some foreign

/-- An address this set reads and the other writes. -/
def readsWritten (s other : AccessSet) : Bool :=
  s.reads.any fun a => other.kindOf a = some .write

/-- An address both sets write. -/
def writesWritten (s other : AccessSet) : Bool :=
  s.writes.any fun a => other.kindOf a = some .write

/-- An address this set writes and the other reads. -/
def writesRead (s other : AccessSet) : Bool :=
  s.writes.any fun a => other.kindOf a = some .read

def conflictsWith (s other : AccessSet) : Conflicts where
  readAfterWrite := s.sharedAs other .read .write
  writeAfterWrite := s.sharedAs other .write .write
  writeAfterRead := s.sharedAs other .write .read

end AccessSet

namespace Conflicts

def total (c : Conflicts) : Nat :=
  c.readAfterWrite.length + c.writeAfterWrite.length + c.writeAfterRead.length

def any (c : Conflicts) : Bool :=
  !(c.readAfterWrite.isEmpty && c.writeAfterWrite.isEmpty && c.writeAfterRead.isEmpty)

end Conflicts

end SpeculativeEvm
