import SpeculativeEvm.Command.Option
import SpeculativeEvm.Nesting
import SpeculativeEvm.Report
import SpeculativeEvm.StateFile

/-!
The command: runs one frame on committed state from a file and prints its report. Files are read
through a function that gives their text or says why it cannot.
-/

namespace SpeculativeEvm.Command

def versionLine : String := "sevm 0.1.0\n"

def helpText : String :=
  "Run bytecode through the speculative EVM and print its read/write set\n\n" ++
  "Usage: sevm [OPTIONS]\n\nOptions:\n" ++
  "      --code <CODE>            Bytecode as hex (with or without 0x)\n" ++
  "      --code-file <CODE_FILE>  File holding the bytecode as hex\n" ++
  "      --input <INPUT>          Call data as hex\n" ++
  "      --address <ADDRESS>      Address of the executing contract\n" ++
  "      --caller <CALLER>        Caller address\n" ++
  "      --value <VALUE>          Call value (decimal or 0x-prefixed hex)\n" ++
  "      --state <STATE>          JSON file describing committed accounts\n" ++
  "  -c, --config <CONFIG>        JSON run configuration (interpreter limits and block context)\n" ++
  "      --log-level <LOG_LEVEL>  Log level (trace, debug, info, warn, error)\n" ++
  "      --pretty                 Pretty-print the JSON report\n" ++
  "  -h, --help                   Print help\n" ++
  "  -V, --version                Print version\n"

/-- How the command ends. -/
structure Exit where
  code : UInt8
  output : String
  /-- The account of a failure; misuse has none. -/
  error : Option String

/-- Runs the frame that a configuration, a ledger and the rest of the options describe. -/
def runFrame (options : Options) (settings : Settings) (env : Environment) (ledger : Ledger)
    (code input : Bytes) (value : Word) : Except Reasons Report :=
  let setup : Setup := ⟨settings, env, ledger.committed⟩
  let inv : Invocation := ⟨options.address, options.caller, value, .ofBytes code, input⟩
  match Nesting.execute setup inv ⟨.fresh settings.maxMemory, ⟨{}, ∅, {}⟩⟩ with
  | .ok output m => .ok (.ofRun m.frame m.world.run output none)
  | .error fault m =>
    if fault.isFatal then .error ["fatal: " ++ fault.message]
    else .ok (.ofRun m.frame m.world.run #[] (some fault.message))

variable {μ : Type → Type} [Monad μ]

/-- The text of a file, or a failure to read it as what it is. -/
def readFile (read : String → μ (Except String String)) (what path : String) :
    ExceptT Reasons μ String := do
  match ← read path with
  | .ok text => return text
  | .error cause => throw ["failed to read " ++ what ++ path, cause]

/-- The value a file spells, if a path is given. -/
def parseFile {α : Type} (read : String → μ (Except String String)) (what : String)
    (parse : String → Option α) (absent : α) : Option String → ExceptT Reasons μ α
  | none => return absent
  | some path => do
    match parse (← readFile read (what ++ " ") path) with
    | some a => return a
    | none => throw ["failed to parse " ++ what ++ " " ++ path]

def readCode (read : String → μ (Except String String)) (options : Options) :
    ExceptT Reasons μ Bytes :=
  match options.code, options.codeFile with
  | some text, _ => ExceptT.mk (pure (within "invalid --code" (because (Numeral.readBytes text))))
  | none, some path => do
    let text ← readFile read "" path
    ExceptT.mk (pure (within ("invalid code in " ++ path) (because (Numeral.readBytes text))))
  | none, none => throw ["either --code or --code-file is required"]

def runOptions (read : String → μ (Except String String)) (options : Options) :
    ExceptT Reasons μ Report := do
  let code ← readCode read options
  let input ← ExceptT.mk <| pure <|
    within "invalid --input" (because (Numeral.readBytes options.input))
  let value ← ExceptT.mk <| pure <|
    within "invalid --value" (because (Numeral.readWord options.value))
  let config ← parseFile read "config" RunConfig.read? {} options.config
  let file ← parseFile read "state" StateFile.read? {} options.state
  let ledger ← ExceptT.mk (pure file.ledger)
  let env ← ExceptT.mk (pure config.environment)
  ExceptT.mk (pure (runFrame options config.settings env ledger code input value))

/-- Carries out what the arguments ask for. -/
def run (read : String → μ (Except String String)) (args : List String) : μ Exit := do
  match Intent.ofArguments args with
  | .misuse => return ⟨2, "", none⟩
  | .help => return ⟨0, helpText, none⟩
  | .version => return ⟨0, versionLine, none⟩
  | .run options =>
    match ← (runOptions read options).run with
    | .error reasons => return ⟨1, "", some reasons.account⟩
    | .ok report =>
      let json := report.toJson
      return ⟨0, (if options.pretty then json.pretty else json.compact) ++ "\n", none⟩

end SpeculativeEvm.Command
