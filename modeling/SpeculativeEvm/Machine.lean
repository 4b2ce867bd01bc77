import SpeculativeEvm.Code
import SpeculativeEvm.Environment
import SpeculativeEvm.Event
import SpeculativeEvm.Memory
import SpeculativeEvm.Speculation
import SpeculativeEvm.Stack

/-!
The state an instruction acts on. A frame has its own counter, stack, memory and output; the world
around it (the run, the host of nested frames and the journal) is shared by the frames of all
levels.
-/

namespace SpeculativeEvm

/-- What is fixed for a whole run. -/
structure Setup where
  settings : Settings
  env : Environment
  committed : Committed

/-- What is fixed for one frame. -/
structure Invocation where
  /-- The account whose storage and balance the frame acts on. -/
  address : Address
  caller : Address
  value : Word
  code : Code
  input : Bytes

structure Frame where
  pc : Nat
  stack : Stack
  memory : Memory
  output : Bytes

def Frame.fresh (memoryLimit : Nat) : Frame :=
  ⟨0, .empty, .empty memoryLimit, #[]⟩

structure World (σ : Type) where
  run : Speculation
  host : σ
  journal : Journal

structure Machine (σ : Type) where
  frame : Frame
  world : World σ

/-- How the frame goes on after an instruction. -/
inductive Control
  | next
  | jump (dest : Nat)
  | halt
  deriving DecidableEq

namespace World

variable {σ : Type}

def modifyRun (f : Speculation → Speculation) : Action (World σ) Unit := fun
  | ⟨run, host, journal⟩ => .ok () ⟨f run, host, journal⟩

/-- Notes an event of the world as it stands. -/
def note (event : World σ → Event) : Action (World σ) Unit := fun w =>
  if w.journal.recording then
    .ok () { w with journal := w.journal.note (event w) }
  else .ok () w

end World

namespace Machine

variable {σ α : Type}

def onStack (act : Action Stack α) : Action (Machine σ) α := fun
  | ⟨⟨pc, stack, memory, output⟩, world⟩ =>
    match act stack with
    | .ok a stack => .ok a ⟨⟨pc, stack, memory, output⟩, world⟩
    | .error e stack => .error e ⟨⟨pc, stack, memory, output⟩, world⟩

def onMemory (act : Action Memory α) : Action (Machine σ) α := fun
  | ⟨⟨pc, stack, memory, output⟩, world⟩ =>
    match act memory with
    | .ok a memory => .ok a ⟨⟨pc, stack, memory, output⟩, world⟩
    | .error e memory => .error e ⟨⟨pc, stack, memory, output⟩, world⟩

def onWorld (act : Action (World σ) α) : Action (Machine σ) α := fun
  | ⟨frame, world⟩ =>
    match act world with
    | .ok a world => .ok a ⟨frame, world⟩
    | .error e world => .error e ⟨frame, world⟩

def onRun (f : Speculation → Speculation) : Action (Machine σ) Unit :=
  onWorld (World.modifyRun f)

/-- A part of the run's state. -/
def readRun (f : Speculation → α) : Action (Machine σ) α := fun m =>
  .ok (f m.world.run) m

/-- Notes an event of the machine as it stands. -/
def note (event : Machine σ → Event) : Action (Machine σ) Unit := fun m =>
  if m.world.journal.recording then
    .ok () { m with world := { m.world with journal := m.world.journal.note (event m) } }
  else .ok () m

def pc : Action (Machine σ) Nat := fun m => .ok m.frame.pc m

def setPc (pc : Nat) : Action (Machine σ) Unit := fun
  | ⟨⟨_, stack, memory, output⟩, world⟩ => .ok () ⟨⟨pc, stack, memory, output⟩, world⟩

def setOutput (output : Bytes) : Action (Machine σ) Unit := fun
  | ⟨⟨pc, stack, memory, _⟩, world⟩ => .ok () ⟨⟨pc, stack, memory, output⟩, world⟩

/-- The frame's output, which is empty from then on. -/
def takeOutput : Action (Machine σ) Bytes := fun
  | ⟨⟨pc, stack, memory, output⟩, world⟩ => .ok output ⟨⟨pc, stack, memory, #[]⟩, world⟩

/-- The result of a check that needs no state. -/
def check (result : Except Fault α) : Action (Machine σ) α := fun m =>
  match result with
  | .ok a => .ok a m
  | .error e => .error e m

end Machine

end SpeculativeEvm
