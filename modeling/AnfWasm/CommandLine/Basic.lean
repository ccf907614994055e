import AnfWasm.CommandLine.Arguments

/-!
# The command line program

`run` reads the arguments and the settings file, compiles, and says what is to be printed.
-/

namespace AnfWasm.CommandLine

def versionText : String := "anfc 0.2.0\n"

def helpText : String := "\n".intercalate [
  "Optimizes ANF programs and emits WebAssembly",
  "",
  "Usage: anfc [OPTIONS]",
  "",
  "  -i, --input FILE         the program to compile",
  "  -o, --output FILE        the module to write",
  "      --debug [BOOL]       also write a listing and the signature",
  "      --source-map [BOOL]  also write a source map",
  "      --optimize BOOL      optimize the program",
  "      --verify-ir BOOL     check the program before and after it is optimized",
  "      --config FILE        read settings from a file",
  "  -v, --verbose            say more",
  "  -h, --help               print this text",
  "  -V, --version            print the version",
  ""]

/-- Where the arguments lead before anything is compiled. -/
inductive Plan where
  | stop (s : Stop)
  | badSettings (verbose : Bool) (problem : Settings.FileProblem)
  | compile (verbose : Bool) (request : Compilation.Request)

variable {m : Type → Type} [Monad m] [FileSystem m]

/-- The settings file is read only if the arguments are all right. -/
def plan (args : List String) : m Plan := do
  match Line.ofArgs args with
  | .error s => return .stop s
  | .ok line =>
    match line.config with
    | none => return .compile line.verbose line.settings.toRequest
    | some p =>
      match ← (Settings.readFile p : m _) with
      | .error problem => return .badSettings line.verbose problem
      | .ok settings => return .compile line.verbose (line.settings.withDefaults settings).toRequest

/-- What the program leaves behind besides files. -/
structure Outcome where
  exitCode : UInt32
  /-- why there was nothing to do -/
  stop : Option Stop := none
  stdout : String := ""
  stderr : String := ""

def levelOf (verbose : Bool) : Log.Level := if verbose then .debug else .info

/-- One line of the log; a record for those who look closer also tells who speaks. -/
def lineOf (r : LogRecord) : String :=
  let speaker := if Log.Level.debug.rank ≤ r.level.rank then "(1) " ++ r.target.path ++ ": " else ""
  "[" ++ r.level.name ++ "] " ++ speaker ++ r.message ++ "\n"

def logText (verbose : Bool) (log : List LogRecord) : String :=
  String.join ((log.filter (·.upTo (levelOf verbose))).map lineOf)

def complaint (s : Stop) (message : String) : Outcome :=
  { exitCode := 2, stop := some s, stderr := "error: " ++ message ++ "\n" }

def stopped (s : Stop) : Outcome :=
  match s with
  | .help => { exitCode := 0, stop := some s, stdout := helpText }
  | .version => { exitCode := 0, stop := some s, stdout := versionText }
  | .unknownArgument => complaint s "unknown argument"
  | .invalidValue => complaint s "invalid or missing value"
  | .conflict => complaint s "an option is given twice"
  | .tooManyValues => complaint s "a flag is given a value"

def ended (ending : Compilation.Ending) (log : String) : Outcome :=
  match ending with
  | .success => { exitCode := 0, stderr := log }
  | .failure => { exitCode := 1, stderr := log }
  | .abort => { exitCode := 101, stderr := log ++ EmitError.overflow.message ++ "\n" }

def run (args : List String) : m Outcome := do
  match ← (plan args : m _) with
  | .stop s => return stopped s
  | .badSettings verbose problem =>
    return { exitCode := 1, stderr := logText verbose [⟨.error, .compilation, problem.message⟩] }
  | .compile verbose request =>
    let (ending, log) ← (Compilation.run request).run []
    return ended ending (logText verbose log)

end AnfWasm.CommandLine
