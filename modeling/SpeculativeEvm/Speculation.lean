import SpeculativeEvm.Access
import SpeculativeEvm.Overlay

/-!
What one speculative run has done so far: its uncommitted writes, its accesses, what nested frames
handed back at each level, and how the run stands. Frames of all levels share it; `level` is that
of the frame now running.
-/

namespace SpeculativeEvm

structure Outcome where
  /-- The run cannot be decided and is to be discarded. -/
  aborted : Bool := false
  succeeded : Bool := true
  selfDestructed : Bool := false
  deriving DecidableEq

structure Speculation where
  overlay : Overlay := .empty
  accesses : AccessSet := .empty
  /-- The distinct payloads returned at each level, in the order of their first return. -/
  returned : Std.ExtTreeMap Nat (List Bytes) := ∅
  /-- The address created at each level. -/
  created : Std.ExtTreeMap Nat Address := ∅
  level : Nat := 0
  outcome : Outcome := {}

namespace Speculation

def payloads (s : Speculation) (level : Nat) : List Bytes :=
  s.returned[level]?.getD []

/-- Records a payload at a level, unless it is recorded there already. -/
def addPayload (s : Speculation) (level : Nat) (payload : Bytes) : Speculation :=
  let known := s.payloads level
  if payload ∈ known then s
  else { s with returned := s.returned.insert level (known ++ [payload]) }

def clearPayloads (s : Speculation) (level : Nat) : Speculation :=
  { s with returned := s.returned.erase level }

def created? (s : Speculation) (level : Nat) : Option Address :=
  s.created[level]?

def setCreated (s : Speculation) (level : Nat) (a : Address) : Speculation :=
  { s with created := s.created.insert level a }

def clearCreated (s : Speculation) (level : Nat) : Speculation :=
  { s with created := s.created.erase level }

/-- Forgets what the level below holds, before a nested frame fills it. -/
def clearBelow (s : Speculation) : Speculation :=
  (s.clearPayloads (s.level + 1)).clearCreated (s.level + 1)

def abort (s : Speculation) : Speculation :=
  { s with outcome := { s.outcome with aborted := true, succeeded := false } }

def fail (s : Speculation) : Speculation :=
  { s with outcome := { s.outcome with succeeded := false } }

def markSelfDestructed (s : Speculation) : Speculation :=
  { s with outcome := { s.outcome with selfDestructed := true } }

def recordRead (s : Speculation) (a : Address) : Speculation :=
  { s with accesses := s.accesses.recordRead a }

def recordWrite (s : Speculation) (a : Address) : Speculation :=
  { s with accesses := s.accesses.recordWrite a }

theorem addPayload_of_mem {s : Speculation} {level : Nat} {payload : Bytes}
    (h : payload ∈ s.payloads level) : s.addPayload level payload = s := by
  simp only [addPayload, if_pos h]

theorem payloads_addPayload_of_notMem {s : Speculation} {level : Nat} {payload : Bytes}
    (h : payload ∉ s.payloads level) (other : Nat) :
    (s.addPayload level payload).payloads other =
      if level = other then s.payloads level ++ [payload] else s.payloads other := by
  simp only [addPayload, if_neg h]
  by_cases hl : level = other <;> simp [payloads, Std.ExtTreeMap.getElem?_insert, hl]

@[simp] theorem payloads_clearBelow (s : Speculation) (level : Nat) :
    s.clearBelow.payloads level = if s.level + 1 = level then [] else s.payloads level := by
  by_cases h : s.level + 1 = level <;>
    simp [clearBelow, clearPayloads, clearCreated, payloads, Std.ExtTreeMap.getElem?_erase, h]

@[simp] theorem created?_clearBelow (s : Speculation) (level : Nat) :
    s.clearBelow.created? level = if s.level + 1 = level then none else s.created? level := by
  by_cases h : s.level + 1 = level <;>
    simp [clearBelow, clearPayloads, clearCreated, created?, Std.ExtTreeMap.getElem?_erase, h]

end Speculation

end SpeculativeEvm
