/-!
# Log records

What a compilation has to tell besides its result is a list of records.
-/

namespace AnfWasm

namespace Log

inductive Level where
  | error
  | warn
  | info
  | debug
  | trace
deriving DecidableEq

def Level.name : Level → String
  | .error => "ERROR"
  | .warn => "WARN"
  | .info => "INFO"
  | .debug => "DEBUG"
  | .trace => "TRACE"

/-- from the gravest to the most talkative -/
def Level.rank : Level → Nat
  | .error => 1
  | .warn => 2
  | .info => 3
  | .debug => 4
  | .trace => 5

/-- The part of the compiler that speaks. -/
inductive Target where
  | compilation
  | passes
  | sharing
  | module
  | lowering
  | emission
  | lock
deriving DecidableEq

def Target.path : Target → String
  | .compilation => "driver"
  | .passes => "ir_anf_passes"
  | .sharing => "ir_anf_passes::cse"
  | .module => "codegen_wasm::program"
  | .lowering => "codegen_wasm::expr"
  | .emission => "emit"
  | .lock => "emit::lock"

end Log

/-- One message of the log. -/
structure LogRecord where
  level : Log.Level
  target : Log.Target
  message : String
deriving DecidableEq

namespace LogRecord

/-- `LEVEL target: message` -/
def text (r : LogRecord) : String := r.level.name ++ " " ++ r.target.path ++ ": " ++ r.message

/-- is the record shown when all up to `level` are? -/
def upTo (level : Log.Level) (r : LogRecord) : Bool := r.level.rank ≤ level.rank

end LogRecord

namespace Log

/-- actions that speak while they work -/
abbrev Speaking (m : Type → Type) := StateT (List LogRecord) m

variable {m : Type → Type} [MonadStateOf (List LogRecord) m]

def sayAll (records : List LogRecord) : m Unit := modifyThe (List LogRecord) (· ++ records)

def say (level : Level) (target : Target) (message : String) : m Unit :=
  sayAll [⟨level, target, message⟩]

end Log

end AnfWasm
