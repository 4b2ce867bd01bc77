import SpeculativeEvm.Json.Reader

/-!
Reading values of fixed shape. A record comes as an object, whose unknown members do not matter, or
as an array of its leading fields; a field that is absent takes its default.
-/

namespace SpeculativeEvm.Json

/-- A whole number in 64 bits: digits alone, without sign, fraction or exponent. -/
def readUInt64 (source : String) : Option UInt64 :=
  let cs := source.toList
  if cs = [] ∨ cs.any (fun c => !c.isDigit) ∨ (cs.head? = some '0' ∧ cs ≠ ['0']) then none
  else
    let n := cs.foldl (fun n c => n * 10 + (c.toNat - '0'.toNat)) 0
    if n < UInt64.size then some (UInt64.ofNat n) else none

namespace Value

def uint64? : Value → Option UInt64
  | .number source => readUInt64 source
  | _ => none

/-- A 64-bit number as a size or count. -/
def size? (v : Value) : Option Nat :=
  v.uint64?.map UInt64.toNat

def text? : Value → Option String
  | .string t => t.content
  | _ => none

/-- A text, or `null` for none. -/
def optionalText? : Value → Option (Option String)
  | .null => some none
  | v => v.text?.map some

/-- The members of an object by name. -/
def members? : Value → Option (List (String × Value))
  | .object members => members.mapM fun m => m.1.content.map (·, m.2)
  | _ => none

/-- The member with a name, if there is one; two of them are refused. -/
def sole (members : List (String × Value)) (name : String) : Option (Option Value) :=
  match members.filter fun m => m.1 = name with
  | [] => some none
  | [m] => some (some m.2)
  | _ => none

/-- The fields of a record, by their names or in their order. -/
def fields? {n : Nat} (names : Vector String n) : Value → Option (Vector (Option Value) n)
  | .array items =>
    if items.length ≤ n then some (Vector.ofFn fun i => items[i.val]?) else none
  | v => do
    let members ← v.members?
    names.mapM (sole members)

/-- Sets the value under a key, in the key's first place. -/
def put {κ α : Type} [DecidableEq κ] (entries : List (κ × α)) (k : κ) (a : α) : List (κ × α) :=
  if entries.any fun e => e.1 = k then entries.map fun e => if e.1 = k then (k, a) else e
  else entries ++ [(k, a)]

/-- The entries of an object with keys and values of fixed shape; the last of equal keys counts. -/
def entries? {κ α : Type} [DecidableEq κ] (key : Text → Option κ) (value : Value → Option α) :
    Value → Option (List (κ × α))
  | .object members => members.foldlM (fun entries m => return put entries (← key m.1) (← value m.2)) []
  | _ => none

end Value

/-- A field's value, its default when it is absent. -/
def fieldOr {α : Type} (default : α) (decode : Value → Option α) : Option Value → Option α
  | some v => decode v
  | none => some default

end SpeculativeEvm.Json
