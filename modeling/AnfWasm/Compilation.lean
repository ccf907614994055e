import AnfWasm.Emission.Basic
import AnfWasm.Lowering.Basic
import AnfWasm.Program.Json
import AnfWasm.Program.Scope
import AnfWasm.Sharing.Basic

/-!
# Compilation

A program is checked, optimized, checked again, lowered and emitted.  `compile` does that with the
program in a file, and `run` also tells how it went.
-/

namespace AnfWasm

namespace Compilation

structure Options where
  debug : Bool := false
  sourceMap : Bool := false
  optimize : Bool := true
  /-- check the program before and after it is optimized -/
  verify : Bool := true
deriving DecidableEq

def Options.emission (o : Options) : Emission.Options := ⟨o.debug, o.sourceMap⟩

inductive Error where
  | unreadable (input : Path) (cause : FileError)
  | notAProgram (input : Path)
  | malformed (cause : Violation)
  /-- the optimized program is malformed -/
  | broken (cause : Violation)
  | lowering (cause : Lowering.Error)
  | emission (cause : EmitError)

/-- the message of an error and of its causes, the outermost first -/
def Error.chain : Error → List String
  | .unreadable p e => ["failed to read `" ++ p.text ++ "`", e.message]
  | .notAProgram p => ["`" ++ p.text ++ "` is not a valid ANF program"]
  | .malformed v => ["internal compiler error: malformed input", v.message]
  | .broken v => ["internal compiler error: optimization broke scoping", v.message]
  | .lowering e => "failed to generate wasm" :: e.chain
  | .emission e => e.chain

def Error.message (e : Error) : String := ": ".intercalate e.chain

/-- actions that compile: they speak, and they may fail -/
abbrev Compiling (m : Type → Type) := ExceptT Error (Log.Speaking m)

variable {m : Type → Type} [Monad m]

def verify (o : Options) (p : Program) (context : Violation → Error) : Compiling m Unit :=
  if o.verify then
    match p.check with
    | .ok () => return ()
    | .error v => throw (context v)
  else return ()

/-- the program after all passes -/
def optimized (p : Program) : Log.Speaking m Program := do
  Log.say .debug .passes ("running pass `" ++ Sharing.passName ++ "`")
  let outcome := p.share
  Log.sayAll outcome.log
  Log.say .trace .passes ("after `" ++ Sharing.passName ++ "`:\n" ++ outcome.program.text)
  return outcome.program

def optimize (o : Options) (p : Program) : Compiling m Program := do
  if o.optimize then
    Log.say .info .compilation "optimizing"
    let p ← (optimized p : Log.Speaking m Program)
    verify o p .broken
    return p
  else return p

def lower (p : Program) : Compiling m Wasm.Module := do
  Log.say .info .compilation "generating wasm"
  let (result, log) := p.lower
  Log.sayAll log
  match result with
  | .ok module => return module
  | .error e => throw (.lowering e)

variable [FileSystem m]

def emit (o : Options) (module : Wasm.Module) (output : Path) : Compiling m Emission.Emitted :=
  ExceptT.mk do
    match ← (Emission.emit module output o.emission).run with
    | .ok e => return .ok e
    | .error e => return .error (.emission e)

def compileProgram (p : Program) (output : Path) (o : Options) : Compiling m Emission.Emitted := do
  verify o p .malformed
  let p ← optimize o p
  Log.say .debug .compilation ("final program:\n" ++ p.text)
  let module ← lower p
  emit o module output

/-- the program in a file, which is its source unless it names another one -/
def readProgram (input : Path) : Compiling m Program := do
  match ← (FileSystem.readText input : m _) with
  | .error e => throw (.unreadable input e)
  | .ok text =>
    match Program.ofText? text with
    | none => throw (.notAProgram input)
    | some p =>
      Log.say .info .compilation ("read `" ++ input.text ++ "`")
      return { p with source := some (p.source.getD input.text) }

def compile (input output : Path) (o : Options) : Compiling m Emission.Emitted := do
  let p ← readProgram input
  compileProgram p output o

/-- What a compilation needs to be told; without an input or an output it does not start. -/
structure Request where
  input : Option Path
  output : Option Path
  options : Options

/-- How a compilation ends. -/
inductive Ending where
  | success
  | failure
  /-- it broke off and had nothing more to say -/
  | abort
deriving DecidableEq

def refuse (missing : List String) : Log.Speaking m Ending := do
  for message in missing do
    Log.say .error .compilation message
  Log.say .error .compilation
    ("cannot start compilation due to " ++ missing.length.repr ++ " previous error(s)")
  return .failure

def inputMissing : String := "an input file is required"

def outputMissing : String := "an output file is required"

/-- compiles, and tells which files were written or what went wrong -/
def run (r : Request) : Log.Speaking m Ending := do
  match r.input, r.output with
  | none, none => refuse [inputMissing, outputMissing]
  | none, some _ => refuse [inputMissing]
  | some _, none => refuse [outputMissing]
  | some input, some output =>
    match ← (compile input output r.options).run with
    | .ok emitted =>
      for file in emitted.files do
        Log.say .info .compilation ("wrote `" ++ file.text ++ "`")
      return .success
    | .error (.emission .overflow) => return .abort
    | .error e =>
      Log.say .error .compilation e.message
      return .failure

end Compilation

end AnfWasm
