import SpeculativeEvm.Environment
import SpeculativeEvm.Json.Decode
import SpeculativeEvm.Reasons
import SpeculativeEvm.Text.Numeral

/-!
The configuration of a run as it is written: numbers of any size are texts until the environment is
made from them. Every field may be left out.
-/

namespace SpeculativeEvm

open Json

namespace Json

def Text.address? (t : Text) : Option Address :=
  t.content.bind fun s => (Address.ofHex s).toOption

def Value.address? : Value → Option Address
  | .string t => t.address?
  | _ => none

def Value.hash? (v : Value) : Option Hash :=
  v.text?.bind fun s => (Hash.ofHex s).toOption

end Json

structure BlockConfig where
  number : UInt64 := 0
  timestamp : UInt64 := 0
  gasLimit : UInt64 := 0
  coinbase : Address := .zero
  hash : Hash := .zero
  ancestorHashes : List (UInt64 × Hash) := []
  difficulty : String := ""

structure RunConfig where
  settings : Settings := {}
  block : BlockConfig := {}
  origin : Address := .zero
  gasPrice : String := "0"
  chainId : UInt64 := 1

namespace Settings

def names : Vector String 4 :=
  #v["gas_stand_in", "max_memory", "max_steps", "max_call_depth"]

def ofJson? (v : Value) : Option Settings := do
  let d : Settings := {}
  let ⟨⟨[gasStandIn, maxMemory, maxSteps, maxCallDepth]⟩, _⟩ ← v.fields? names
  return {
    gasStandIn := ← fieldOr d.gasStandIn Value.uint64? gasStandIn
    maxMemory := ← fieldOr d.maxMemory Value.size? maxMemory
    maxSteps := ← fieldOr d.maxSteps Value.size? maxSteps
    maxCallDepth := ← fieldOr d.maxCallDepth Value.size? maxCallDepth }

def toJson (s : Settings) : Value :=
  .ofMembers [("gas_stand_in", .ofNat s.gasStandIn.toNat), ("max_memory", .ofNat s.maxMemory),
    ("max_steps", .ofNat s.maxSteps), ("max_call_depth", .ofNat s.maxCallDepth)]

end Settings

namespace BlockConfig

def names : Vector String 7 :=
  #v["number", "timestamp", "gas_limit", "coinbase", "hash", "ancestor_hashes", "difficulty"]

/-- The hashes of ancestors by their numbers, which are written as plain digits in quotes. -/
def ancestors? : Value → Option (List (UInt64 × Hash)) :=
  Value.entries? (fun t => readUInt64 t.source) Value.hash?

def ofJson? (v : Value) : Option BlockConfig := do
  let d : BlockConfig := {}
  let ⟨⟨[number, timestamp, gasLimit, coinbase, hash, ancestorHashes, difficulty]⟩, _⟩ ←
    v.fields? names
  return {
    number := ← fieldOr d.number Value.uint64? number
    timestamp := ← fieldOr d.timestamp Value.uint64? timestamp
    gasLimit := ← fieldOr d.gasLimit Value.uint64? gasLimit
    coinbase := ← fieldOr d.coinbase Value.address? coinbase
    hash := ← fieldOr d.hash Value.hash? hash
    ancestorHashes := ← fieldOr d.ancestorHashes ancestors? ancestorHashes
    difficulty := ← fieldOr d.difficulty Value.text? difficulty }

def toJson (b : BlockConfig) : Value :=
  .ofMembers [("number", .ofNat b.number.toNat), ("timestamp", .ofNat b.timestamp.toNat),
    ("gas_limit", .ofNat b.gasLimit.toNat), ("coinbase", .ofString b.coinbase.hex),
    ("hash", .ofString b.hash.hex),
    ("ancestor_hashes", .ofMembers (b.ancestorHashes.map fun e =>
      (toString e.1.toNat, .ofString e.2.hex))),
    ("difficulty", .ofString b.difficulty)]

end BlockConfig

namespace RunConfig

def names : Vector String 5 :=
  #v["interpreter", "block", "origin", "gas_price", "chain_id"]

def ofJson? (v : Value) : Option RunConfig := do
  let d : RunConfig := {}
  let ⟨⟨[settings, block, origin, gasPrice, chainId]⟩, _⟩ ← v.fields? names
  return {
    settings := ← fieldOr d.settings Settings.ofJson? settings
    block := ← fieldOr d.block BlockConfig.ofJson? block
    origin := ← fieldOr d.origin Value.address? origin
    gasPrice := ← fieldOr d.gasPrice Value.text? gasPrice
    chainId := ← fieldOr d.chainId Value.uint64? chainId }

def read? (text : String) : Option RunConfig := do
  ofJson? (← Value.read? text)

def toJson (c : RunConfig) : Value :=
  .ofMembers [("interpreter", c.settings.toJson), ("block", c.block.toJson),
    ("origin", .ofString c.origin.hex), ("gas_price", .ofString c.gasPrice),
    ("chain_id", .ofNat c.chainId.toNat)]

/-- The environment the configuration describes. -/
def environment (c : RunConfig) : Except Reasons Environment := do
  let difficulty ← within "invalid difficulty" (because (Numeral.readNat c.block.difficulty))
  let gasPrice ← within "invalid gas price" (because (Numeral.readNat c.gasPrice))
  return {
    block := {
      number := c.block.number
      timestamp := c.block.timestamp
      gasLimit := c.block.gasLimit
      coinbase := c.block.coinbase
      hash := c.block.hash
      ancestorHashes := c.block.ancestorHashes.foldl (fun m e => m.insert e.1 e.2) ∅
      difficulty }
    origin := c.origin
    gasPrice
    chainId := c.chainId }

end RunConfig

end SpeculativeEvm
