import SpeculativeEvm.Json.Writer
import SpeculativeEvm.Machine

/-!
The report of a finished frame and its run: output, stack, flags, accesses and uncommitted writes,
all as texts, and the JSON object it is printed as.
-/

namespace SpeculativeEvm

open Json

/-- Texts by their names, which are in ascending order. -/
abbrev Texts := Std.ExtTreeMap String String

/-- An access by the texts of its account and its kind. -/
structure AccessEntry where
  address : String
  kind : String
  deriving DecidableEq

structure Report where
  output : String
  /-- From the bottom to the top. -/
  stack : List String
  outcome : Outcome
  /-- What stopped the frame, unless it ended by itself. -/
  error : Option String
  reads : List String
  writes : List String
  log : List AccessEntry
  balances : Texts
  /-- The slots of each account. -/
  storage : Std.ExtTreeMap String Texts

namespace Report

def wordText (w : Word) : String := Hex.marked w.toBytes

def kindText : AccessKind → String
  | .read => "read"
  | .write => "write"

def accessEntry (a : Access) : AccessEntry := ⟨a.address.hex, kindText a.kind⟩

def balanceTexts (balances : List (Address × Word)) : Texts :=
  .ofList (balances.map fun e => (e.1.hex, wordText e.2))

/-- Puts a slot to those of its account. -/
def putSlot (groups : Std.ExtTreeMap String Texts) (e : SlotKey × Word) :
    Std.ExtTreeMap String Texts :=
  let address := e.1.address.hex
  groups.insert address ((groups[address]?.getD ∅).insert (wordText e.1.slot) (wordText e.2))

def storageTexts (slots : List (SlotKey × Word)) : Std.ExtTreeMap String Texts :=
  slots.foldl putSlot ∅

def ofRun (frame : Frame) (run : Speculation) (output : Bytes) (error : Option String) :
    Report where
  output := Hex.marked output
  stack := frame.stack.fromBottom.map wordText
  outcome := run.outcome
  error
  reads := (run.accesses.reads.map Address.hex).mergeSort
  writes := (run.accesses.writes.map Address.hex).mergeSort
  log := run.accesses.log.toList.map accessEntry
  balances := balanceTexts run.overlay.balances.toList
  storage := storageTexts run.overlay.storage.toList

def entryJson (e : AccessEntry) : Value :=
  .ofMembers [("address", .ofString e.address), ("kind", .ofString e.kind)]

/-- An object with a string for each name. -/
def textsJson (texts : Texts) : Value :=
  .ofMembers (texts.toList.map fun e => (e.1, .ofString e.2))

/-- The error is left out when there is none. -/
def toJson (r : Report) : Value :=
  .ofMembers <|
    [("output", .ofString r.output),
      ("stack", .ofStrings r.stack),
      ("abort", .bool r.outcome.aborted),
      ("result", .bool r.outcome.succeeded),
      ("suicide", .bool r.outcome.selfDestructed)] ++
    (r.error.map fun e => ("error", Value.ofString e)).toList ++
    [("reads", .ofStrings r.reads),
      ("writes", .ofStrings r.writes),
      ("access_log", .array (r.log.map entryJson)),
      ("balances", textsJson r.balances),
      ("storage", .ofMembers (r.storage.toList.map fun e => (e.1, textsJson e.2)))]

end Report

end SpeculativeEvm
