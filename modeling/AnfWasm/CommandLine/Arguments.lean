import AnfWasm.CommandLine.Settings

/-!
# Arguments

Arguments are read from the left.  An option can have its value attached or in the next argument,
and is settled only when another option or flag is met or the line ends; an argument that means
nothing ends the reading at once.
-/

namespace AnfWasm.CommandLine

/-- options with a value -/
inductive Opt where
  | input
  | output
  | debug
  | sourceMap
  | optimize
  | verify
  | config
deriving DecidableEq

inductive Flag where
  | verbose
  | help
  | version
deriving DecidableEq

inductive Switch where
  | opt (o : Opt)
  | flag (f : Flag)

def Switch.ofLong? : String → Option Switch
  | "input" => some (.opt .input)
  | "output" => some (.opt .output)
  | "debug" => some (.opt .debug)
  | "source-map" => some (.opt .sourceMap)
  | "optimize" => some (.opt .optimize)
  | "verify-ir" => some (.opt .verify)
  | "config" => some (.opt .config)
  | "verbose" => some (.flag .verbose)
  | "help" => some (.flag .help)
  | "version" => some (.flag .version)
  | _ => none

def Switch.ofShort? : Char → Option Switch
  | 'i' => some (.opt .input)
  | 'o' => some (.opt .output)
  | 'v' => some (.flag .verbose)
  | 'h' => some (.flag .help)
  | 'V' => some (.flag .version)
  | _ => none

/-- Why reading ends early. -/
inductive Stop where
  | unknownArgument
  | invalidValue
  /-- an option or a flag is given twice -/
  | conflict
  /-- a flag is given a value -/
  | tooManyValues
  | help
  | version
deriving DecidableEq

/-- What a command line says. -/
structure Line where
  settings : Settings := {}
  config : Option Path := none
  verbose : Bool := false
deriving DecidableEq

/-! ### values -/

def boolOf : String → Except Stop Bool
  | "true" => .ok true
  | "false" => .ok false
  | _ => .error .invalidValue

def pathOf (s : String) : Except Stop Path :=
  if s.isEmpty then .error .invalidValue else .ok ⟨s⟩

/-- the value that an option has when it is given none -/
def Opt.fallback? : Opt → Option String
  | .debug | .sourceMap => some "true"
  | _ => none

/-- a value for a setting that may not have one yet -/
def fresh {α : Type} (old : Option α) (value : Except Stop α) : Except Stop (Option α) :=
  match old with
  | some _ => .error .conflict
  | none => some <$> value

def Line.assign (l : Line) (o : Opt) (value : String) : Except Stop Line := do
  let s := l.settings
  match o with
  | .input => return { l with settings := { s with input := ← fresh s.input (pathOf value) } }
  | .output => return { l with settings := { s with output := ← fresh s.output (pathOf value) } }
  | .debug => return { l with settings := { s with debug := ← fresh s.debug (boolOf value) } }
  | .sourceMap =>
    return { l with settings := { s with sourceMap := ← fresh s.sourceMap (boolOf value) } }
  | .optimize =>
    return { l with settings := { s with optimize := ← fresh s.optimize (boolOf value) } }
  | .verify => return { l with settings := { s with verify := ← fresh s.verify (boolOf value) } }
  | .config => return { l with config := ← fresh l.config (pathOf value) }

def Line.raise (l : Line) : Flag → Except Stop Line
  | .verbose => if l.verbose then .error .conflict else .ok { l with verbose := true }
  | .help => .error .help
  | .version => .error .version

/-! ### reading -/

/-- An option that waits to be settled, with its value if that has come. -/
structure Pending where
  opt : Opt
  value : Option String

structure State where
  line : Line := {}
  pending : Option Pending := none

/-- the line with the pending option in it -/
def State.settle (s : State) : Except Stop Line :=
  match s.pending with
  | none => .ok s.line
  | some ⟨o, value⟩ =>
    match value <|> o.fallback? with
    | some v => s.line.assign o v
    | none => .error .invalidValue

def State.flag (s : State) (f : Flag) : Except Stop State := do
  let line ← (← s.settle).raise f
  return { line }

def State.option (s : State) (o : Opt) : Option String → Except Stop State
  | some v => do
    let line ← (← s.settle).assign o v
    return { line }
  | none => do
    let line ← s.settle
    return { line, pending := some ⟨o, none⟩ }

/-- The shape of one argument. -/
inductive Shape where
  /-- two dashes, after which nothing is an option -/
  | dashes
  | long (name : String) (value : Option String)
  | short (letters : List Char)
  | plain (text : String)

/-- an equals sign parts the name from the value -/
def longOf (cs : List Char) : Shape :=
  .long (String.ofList (cs.takeWhile (· ≠ '=')))
    (match cs.dropWhile (· ≠ '=') with
      | _ :: value => some (String.ofList value)
      | [] => none)

def Shape.of (s : String) : Shape :=
  match s.toList with
  | ['-', '-'] => .dashes
  | '-' :: '-' :: cs => longOf cs
  | ['-'] => .plain s
  | '-' :: cs => .short cs
  | _ => .plain s

/-- what follows the letter of an option is its value, with or without an equals sign -/
def attached? : List Char → Option String
  | [] => none
  | '=' :: cs => some (String.ofList cs)
  | cs => some (String.ofList cs)

/-- flags of one letter each, and at most one option, which takes the rest -/
def State.letters (s : State) : List Char → Except Stop State
  | [] => .ok s
  | c :: cs =>
    match Switch.ofShort? c with
    | none => .error .unknownArgument
    | some (.flag f) => do (← s.flag f).letters cs
    | some (.opt o) => s.option o (attached? cs)

def State.long (s : State) (name : String) (value : Option String) : Except Stop State :=
  match Switch.ofLong? name with
  | none => .error .unknownArgument
  | some (.flag f) => if value.isSome then .error .tooManyValues else s.flag f
  | some (.opt o) => s.option o value

/-- a plain argument can only be the value of the option before it -/
def State.plain (s : State) (text : String) : Except Stop State :=
  match s.pending with
  | some ⟨o, none⟩ => .ok { s with pending := some ⟨o, some text⟩ }
  | _ => .error .unknownArgument

def State.read (s : State) : List String → Except Stop Line
  | [] => s.settle
  | a :: as =>
    match Shape.of a with
    | .dashes => if as.isEmpty then s.settle else .error .unknownArgument
    | .long name value => do (← s.long name value).read as
    | .short letters => do (← s.letters letters).read as
    | .plain text => do (← s.plain text).read as

def Line.ofArgs (args : List String) : Except Stop Line := ({} : State).read args

end AnfWasm.CommandLine
