import SpeculativeEvm.Host

/-!
A host that runs no frames but plays a script: the n-th request of a frame gets the n-th entry, and
requests past the end of the script its last one.
-/

namespace SpeculativeEvm.Script

/-- What the host does for one request, in the order of the fields. -/
structure Entry where
  payloads : List Bytes := []
  created : Option Address := none
  abort : Bool := false
  /-- The fault to end with. -/
  fault : Option Fault := none

/-- A request as it reached the host. -/
structure Received where
  level : Nat
  sender : Address
  request : Request

structure Player where
  entries : Array Entry
  received : Array Received := #[]

/-- The entry for the next request. -/
def Player.entry (p : Player) : Entry :=
  p.entries[min p.received.size (p.entries.size - 1)]?.getD {}

def Entry.play (e : Entry) (run : Speculation) : Speculation :=
  let below := run.level + 1
  let run := e.payloads.foldl (fun run payload => run.addPayload below payload) run
  let run := (e.created.map (run.setCreated below)).getD run
  if e.abort then run.abort else run

def host : Host Player := fun inv request => fun
  | ⟨run, player, journal⟩ =>
    let entry := player.entry
    let player := { player with
      received := player.received.push ⟨run.level, inv.address, request⟩ }
    let w : World Player := ⟨entry.play run, player, journal⟩
    match entry.fault with
    | some fault => .error fault w
    | none => .ok () w

end SpeculativeEvm.Script
