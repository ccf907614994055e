import AnfWasm.Emission.Lock
import AnfWasm.SourceMap.Basic
import AnfWasm.Wasm.Signature
import AnfWasm.Wasm.Text

/-!
# Emission

A module is written to its output file, on request with a source map, a listing and its signature
in files beside it.  `artifacts` are these files in the order in which they are written, and
`emitWith` writes them under a lock marker.  What a listing looks like is up to a `Renderer`; `emit`
lists modules in the text format.
-/

namespace AnfWasm

namespace Path

def lock (output : Path) : Path := output.withSuffix ".lock"

def sourceMap (output : Path) : Path := output.withSuffix ".map"

def listing (output : Path) : Path := output.withSuffix ".wast"

def signature (output : Path) : Path := output.withSuffix ".modsig"

end Path

namespace Emission

structure Options where
  /-- also write a listing and the signature -/
  debug : Bool := false
  /-- also write a source map, and name it in the module -/
  sourceMap : Bool := false
deriving DecidableEq

/-- the files that were written -/
structure Emitted where
  primary : Path
  sourceMap : Option Path
  listing : Option Path
  signature : Option Path
deriving DecidableEq

def Emitted.files (e : Emitted) : List Path :=
  e.primary :: [e.sourceMap, e.listing, e.signature].filterMap id

/-- A file to be written. -/
structure Artifact where
  path : Path
  /-- what is said before it is written -/
  remarks : List LogRecord
  content : Except EmitError Bytes

/-- a map from the bodies of the functions to where they begin in the source -/
def addFunctions (source : UInt32) (b : MapBuilder) : List Wasm.FuncOffset → MapBuilder
  | [] => b
  | f :: fs =>
    match f.span with
    | none => addFunctions source b fs
    | some span =>
      let (name, b) := b.addName f.name
      addFunctions source (b.addMapping ⟨⟨0, f.bodyOffset⟩, source, span.start, some name⟩) fs

/-- the source map of a module that is written to `file`, and what there is to say about it -/
def sourceMapOf (m : Wasm.Module) (functions : List Wasm.FuncOffset) (file : String) :
    SourceMap × List LogRecord :=
  let b := MapBuilder.ofFile (some file)
  match m.source with
  | some s =>
    let (source, b) := b.addSource s
    ((addFunctions source b functions).build, [])
  | none =>
    (b.build, [⟨.debug, .emission, "program has no source file; the source map is empty"⟩])

/-- the source map of `file` as the module names it -/
def urlOf (file : String) (o : Options) : Option String :=
  if o.sourceMap then some (file ++ ".map") else none

/-- Lists a module that names this source map, or says why not, the outermost cause first. -/
abbrev Renderer := Wasm.Module → Option String → Except (List String) String

/-- the text format -/
def listing : Renderer := fun m url => (m.toText url).mapError Wasm.TooManyParams.chain

/-- The files of a module in the order in which they are written. -/
def artifacts (render : Renderer) (m : Wasm.Module) (output : Path) (file : String) (o : Options) :
    List Artifact :=
  let url := urlOf file o
  let encoded := m.encode url
  let (map, remarks) := sourceMapOf m encoded.functions file
  (if o.sourceMap then [⟨output.sourceMap, remarks, .ok (utf8 map.toText)⟩] else [])
    ++ [⟨output, [], .ok encoded.bytes⟩]
    ++ if o.debug then
        [⟨output.listing, [], match render m url with
          | .ok s => .ok (utf8 s)
          | .error causes => .error (.render output.listing causes)⟩,
        ⟨output.signature, [], match m.signature.toToml? with
          | some s => .ok (utf8 s)
          | none => .error .overflow⟩]
      else []

/-- what `artifacts` leaves behind -/
def emittedOf (output : Path) (o : Options) : Emitted where
  primary := output
  sourceMap := if o.sourceMap then some output.sourceMap else none
  listing := if o.debug then some output.listing else none
  signature := if o.debug then some output.signature else none

variable {m : Type → Type} [Monad m] [FileSystem m]

def writeArtifact (a : Artifact) : Emitting m Unit := do
  Log.sayAll a.remarks
  match a.content with
  | .error e => throw e
  | .ok content =>
    match ← (FileSystem.write a.path content : m _) with
    | .error e => throw (.write a.path e)
    | .ok () => Log.say .debug .emission ("wrote `" ++ a.path.text ++ "`")

/-- stops at the first file that cannot be written -/
def writeAll : List Artifact → Emitting m Unit
  | [] => return ()
  | a :: as => do
    writeArtifact a
    writeAll as

/-- makes the directory of the output if it names one -/
def makeParent (output : Path) : Emitting m Unit := do
  match output.parent? with
  | none => return ()
  | some parent =>
    unless parent.text.isEmpty do
      match ← (FileSystem.makeDirs parent : m _) with
      | .ok () => return ()
      | .error e => throw (.createDir parent e)

def emitWith (render : Renderer) (module : Wasm.Module) (output : Path) (o : Options) :
    Emitting m Emitted := do
  match output.fileName? with
  | none => throw (.invalidOutput output)
  | some file =>
    makeParent output
    Lock.holding output.lock do
      writeAll (artifacts render module output file o)
      return emittedOf output o

def emit : Wasm.Module → Path → Options → Emitting m Emitted := emitWith listing

end Emission

end AnfWasm
