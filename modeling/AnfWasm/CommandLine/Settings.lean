import AnfWasm.Compilation
import AnfWasm.Toml.Reader

/-!
# Settings

What can be set on the command line and in a settings file.  The command line wins, and what
neither of them sets has a default.
-/

namespace AnfWasm

structure Settings where
  input : Option Path := none
  output : Option Path := none
  debug : Option Bool := none
  sourceMap : Option Bool := none
  optimize : Option Bool := none
  verify : Option Bool := none
deriving DecidableEq

namespace Settings

/-- these settings, and others where there are none -/
def withDefaults (s t : Settings) : Settings where
  input := s.input <|> t.input
  output := s.output <|> t.output
  debug := s.debug <|> t.debug
  sourceMap := s.sourceMap <|> t.sourceMap
  optimize := s.optimize <|> t.optimize
  verify := s.verify <|> t.verify

def toRequest (s : Settings) : Compilation.Request :=
  let d : Compilation.Options := {}
  { input := s.input
    output := s.output
    options := {
      debug := s.debug.getD d.debug
      sourceMap := s.sourceMap.getD d.sourceMap
      optimize := s.optimize.getD d.optimize
      verify := s.verify.getD d.verify } }

/-- sets what is not set yet -/
def once {α : Type} (old : Option α) (value : α) : Option (Option α) :=
  match old with
  | none => some (some value)
  | some _ => none

/-- One entry of a settings file; a key that is unknown or set before is refused. -/
def enter (s : Settings) : String × Toml.Value → Option Settings
  | ("input", .str p) => (once s.input ⟨p⟩).map fun v => { s with input := v }
  | ("output", .str p) => (once s.output ⟨p⟩).map fun v => { s with output := v }
  | ("debug", .bool b) => (once s.debug b).map fun v => { s with debug := v }
  | ("source_map", .bool b) => (once s.sourceMap b).map fun v => { s with sourceMap := v }
  | ("optimize", .bool b) => (once s.optimize b).map fun v => { s with optimize := v }
  | ("verify_ir", .bool b) => (once s.verify b).map fun v => { s with verify := v }
  | _ => none

def ofText? (text : String) : Option Settings := do
  (← Toml.entries? text).foldlM enter {}

inductive FileProblem where
  | unreadable (path : Path) (cause : FileError)
  | invalid (path : Path)
deriving DecidableEq

def FileProblem.message : FileProblem → String
  | .unreadable p e => "failed to read config `" ++ p.text ++ "`: " ++ e.message
  | .invalid p => "invalid config `" ++ p.text ++ "`"

def readFile {m : Type → Type} [Monad m] [FileSystem m] (p : Path) :
    m (Except FileProblem Settings) := do
  match ← (FileSystem.readText p : m _) with
  | .error e => return .error (.unreadable p e)
  | .ok text => match ofText? text with
    | some s => return .ok s
    | none => return .error (.invalid p)

end Settings

end AnfWasm
