import SpeculativeEvm.Address

/-!
The arguments of the command. Each option is given at most once; the value of an option stands
behind `=` or is the next argument, which then does not start with a dash, a lone dash aside.
-/

namespace SpeculativeEvm.Command

inductive Key
  | code | codeFile | input | address | caller | value | state | config | logLevel
  | pretty | help | version
  deriving DecidableEq

/-- Everything a run is told on the command line. -/
structure Options where
  code : Option String := none
  codeFile : Option String := none
  input : String := ""
  address : Address := ⟨0xc0de⟩
  caller : Address := ⟨0xca11e⟩
  value : String := "0"
  state : Option String := none
  config : Option String := none
  /-- Taken and not used: the command writes no log. -/
  logLevel : String := "warn"
  pretty : Bool := false

/-- What the arguments ask for. -/
inductive Intent
  | run (options : Options)
  | help
  | version
  /-- The arguments make no sense. -/
  | misuse

def Key.ofLong? : String → Option Key
  | "code" => some .code
  | "code-file" => some .codeFile
  | "input" => some .input
  | "address" => some .address
  | "caller" => some .caller
  | "value" => some .value
  | "state" => some .state
  | "config" => some .config
  | "log-level" => some .logLevel
  | "pretty" => some .pretty
  | "help" => some .help
  | "version" => some .version
  | _ => none

def Key.ofShort? : Char → Option Key
  | 'c' => some .config
  | 'h' => some .help
  | 'V' => some .version
  | _ => none

def Key.takesValue : Key → Bool
  | .pretty | .help | .version => false
  | _ => true

/-- A path, which must not be empty. -/
def path? (text : String) : Option String :=
  if text = "" then none else some text

/-- Sets an option that takes a value, if the value makes sense for it. -/
def Options.set? (o : Options) (key : Key) (text : String) : Option Options :=
  match key with
  | .code => some { o with code := some text }
  | .codeFile => (path? text).map fun p => { o with codeFile := some p }
  | .input => some { o with input := text }
  | .address => (Address.ofHex text).toOption.map fun a => { o with address := a }
  | .caller => (Address.ofHex text).toOption.map fun a => { o with caller := a }
  | .value => some { o with value := text }
  | .state => (path? text).map fun p => { o with state := some p }
  | .config => (path? text).map fun p => { o with config := some p }
  | .logLevel => some { o with logLevel := text }
  | .pretty | .help | .version => none

/-- Options read so far and their keys. -/
structure Reading where
  options : Options := {}
  keys : List Key := []

def Reading.set? (r : Reading) (key : Key) (text : String) : Option Reading :=
  if key ∈ r.keys then none
  else (r.options.set? key text).map fun o => ⟨o, key :: r.keys⟩

def Reading.setPretty? (r : Reading) : Option Reading :=
  if Key.pretty ∈ r.keys then none
  else some ⟨{ r.options with pretty := true }, .pretty :: r.keys⟩

/-- Exactly one of the two sources of code must be given. -/
def Reading.finish (r : Reading) : Intent :=
  if r.options.code.isSome = r.options.codeFile.isSome then .misuse else .run r.options

/-- Whether an argument can be the value of the option before it. -/
def isValue (arg : String) : Bool :=
  match arg.toList with
  | '-' :: _ :: _ => false
  | _ => true

/-- A long option's name and the value behind `=`, if there is one. -/
def splitLong (cs : List Char) : String × Option String :=
  let name := String.ofList (cs.takeWhile (· ≠ '='))
  match cs.dropWhile (· ≠ '=') with
  | _ :: value => (name, some (String.ofList value))
  | [] => (name, none)

/-- The value attached to a short option, whose `=` may be left out. -/
def shortValue : List Char → Option String
  | [] => none
  | '=' :: value => some (String.ofList value)
  | value => some (String.ofList value)

/-- An option of one argument: its key and the value attached to it. -/
def optionOf? (arg : String) : Option (Key × Option String) :=
  match arg.toList with
  | '-' :: '-' :: cs =>
    let (name, value) := splitLong cs
    match Key.ofLong? name with
    | some key => if key.takesValue ∨ value = none then some (key, value) else none
    | none => none
  | '-' :: c :: cs =>
    match Key.ofShort? c with
    | some key => some (key, if key.takesValue then shortValue cs else none)
    | none => none
  | _ => none

/-- Reads the arguments from left to right; asking for help or the version ends the reading. -/
def readFrom (r : Reading) : List String → Intent
  | [] => r.finish
  | arg :: rest =>
    if arg = "--" then if rest = [] then r.finish else .misuse
    else
      match optionOf? arg with
      | none => .misuse
      | some (.help, _) => .help
      | some (.version, _) => .version
      | some (.pretty, _) =>
        match r.setPretty? with
        | some r => readFrom r rest
        | none => .misuse
      | some (key, some text) =>
        match r.set? key text with
        | some r => readFrom r rest
        | none => .misuse
      | some (key, none) =>
        match rest with
        | [] => .misuse
        | text :: rest =>
          if isValue text then
            match r.set? key text with
            | some r => readFrom r rest
            | none => .misuse
          else .misuse

def Intent.ofArguments (args : List String) : Intent :=
  readFrom {} args

end SpeculativeEvm.Command
