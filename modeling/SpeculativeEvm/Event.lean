import SpeculativeEvm.Address
import SpeculativeEvm.Fault
import SpeculativeEvm.Instruction.Mnemonic

/-!
The events of a run and the line each is logged as: severity, message and fields. A journal that
is off keeps none.
-/

namespace SpeculativeEvm

inductive Severity
  | trace | debug | warn

def Severity.name : Severity → String
  | trace => "trace"
  | debug => "debug"
  | warn => "warn"

inductive Event
  | step (pc : Nat) (opcode : UInt8) (depth : Nat)
  | overlayStore (address : Address) (slot value : Word)
  | selfDestruct (address beneficiary : Address) (balance : Word)
  /-- A call names its target, a creation does not. -/
  | dispatching (op : String) (target : Option Address) (level : Nat)
  | callResolved (op : String) (level length : Nat)
  | noPayload (op : String) (level : Nat)
  | ambiguousPayloads (op : String) (level count : Nat)
  | createResolved (level : Nat) (address : Address)
  | aborted (pc : Nat) (opcode : UInt8) (level : Nat) (address : Address)
  | depthLimit (level : Nat)
  | childFailed (address : Address) (level : Nat) (fault : Fault)

namespace Event

def severity : Event → Severity
  | step .. | overlayStore .. => .trace
  | selfDestruct .. | dispatching .. | callResolved .. | createResolved .. | depthLimit .. => .debug
  | noPayload .. | ambiguousPayloads .. | aborted .. | childFailed .. => .warn

def message : Event → String
  | step .. => "step"
  | overlayStore .. => "overlay store"
  | selfDestruct .. => "selfdestruct"
  | dispatching .. => "dispatching"
  | callResolved .. => "sub-call resolved"
  | noPayload .. => "sub-call recorded no return payload"
  | ambiguousPayloads .. => "sub-call returned ambiguous payloads"
  | createResolved .. => "create resolved"
  | aborted .. => "speculative run aborted"
  | depthLimit .. => "call depth limit reached"
  | childFailed .. => "nested frame failed"

/-- Names and values, in the order they are logged. -/
def fields : Event → List (String × String)
  | step pc opcode depth =>
    [("pc", toString pc), ("op", Instruction.textOfByte opcode), ("depth", toString depth)]
  | overlayStore address slot value =>
    [("address", address.hex), ("slot", Hex.marked slot.toBytes), ("value", toString value.toNat)]
  | selfDestruct address beneficiary balance =>
    [("address", address.hex), ("beneficiary", beneficiary.hex),
      ("balance", toString balance.toNat)]
  | dispatching op target level =>
    [("op", op)] ++ (target.map fun a => ("to", a.hex)).toList ++ [("level", toString level)]
  | callResolved op level length =>
    [("op", op), ("level", toString level), ("len", toString length)]
  | noPayload op level => [("op", op), ("level", toString level)]
  | ambiguousPayloads op level count =>
    [("op", op), ("level", toString level), ("count", toString count)]
  | createResolved level address => [("level", toString level), ("address", address.hex)]
  | aborted pc opcode level address =>
    [("pc", toString pc), ("op", Instruction.textOfByte opcode), ("level", toString level),
      ("address", address.hex)]
  | depthLimit level => [("level", toString level)]
  | childFailed address level fault =>
    [("address", address.hex), ("level", toString level), ("error", fault.message)]

def render (e : Event) : String :=
  " ".intercalate
    (e.severity.name :: e.message :: e.fields.map fun f => f.1 ++ "=" ++ f.2)

end Event

structure Journal where
  recording : Bool := false
  /-- The latest event first. -/
  events : List Event := []

namespace Journal

def note (j : Journal) (e : Event) : Journal :=
  if j.recording then { j with events := e :: j.events } else j

/-- The logged lines, in program order. -/
def lines (j : Journal) : List String :=
  (j.events.map Event.render).reverse

end Journal

end SpeculativeEvm
