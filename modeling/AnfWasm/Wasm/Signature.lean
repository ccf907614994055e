import AnfWasm.Json.Printer
import AnfWasm.Json.Reader
import AnfWasm.Toml.Quoted
import AnfWasm.Wasm.Module

/-!
# Signatures

The signature of a module is what its host has to know: the names that it exports, and the
functions that it imports.  It is written as JSON and as TOML, and read from JSON.
-/

namespace AnfWasm.Wasm

inductive ExportKind where
  | function
  | memory
deriving DecidableEq

structure ExportSig where
  name : String
  kind : ExportKind
  /-- the number of parameters of a function -/
  arity : Option UInt32
deriving DecidableEq

structure ImportSig where
  module : String
  name : String
  arity : UInt32
deriving DecidableEq

structure Signature where
  exports : List ExportSig
  imports : List ImportSig
deriving DecidableEq

namespace Module

/-- the exported functions in order, and the memory after them -/
def signature (m : Module) : Signature where
  exports := m.exports.map (fun (_, f, name) => ⟨name, .function, some (.ofNat f.arity)⟩)
    ++ [⟨memoryName, .memory, none⟩]
  imports := m.imports.map fun i => ⟨i.module, i.name, i.arity⟩

end Module

namespace ExportKind

def name : ExportKind → String
  | .function => "function"
  | .memory => "memory"

def ofName? : String → Option ExportKind
  | "function" => some .function
  | "memory" => some .memory
  | _ => none

end ExportKind

/-! ### JSON -/

namespace ExportSig

def toJson (e : ExportSig) : Json :=
  .obj ([("name", .str e.name), ("kind", .str e.kind.name)]
    ++ match e.arity with
      | some n => [("arity", .ofNat n.toNat)]
      | none => [])

def ofJson? : Nat → Json → Option ExportSig
  | n + 1, j => do
    let [some name, some kind, arity] ← j.record ["name", "kind", "arity"] | none
    return ⟨← name.str?, ← Json.bare? n kind >>= ExportKind.ofName?,
      ← Json.orElse none (Json.nullable Json.uint32?) arity⟩
  | 0, _ => none

end ExportSig

namespace ImportSig

def toJson (i : ImportSig) : Json :=
  .obj [("module", .str i.module), ("name", .str i.name), ("arity", .ofNat i.arity.toNat)]

def ofJson? : Nat → Json → Option ImportSig
  | _ + 1, j => do
    let [some module, some name, some arity] ← j.record ["module", "name", "arity"] | none
    return ⟨← module.str?, ← name.str?, ← arity.uint32?⟩
  | 0, _ => none

end ImportSig

namespace Signature

/-- the first export of that name -/
def find? (s : Signature) (name : String) : Option ExportSig :=
  s.exports.find? (·.name == name)

def toJson (s : Signature) : Json :=
  .obj [("exports", .arr (s.exports.map ExportSig.toJson)),
    ("imports", .arr (s.imports.map ImportSig.toJson))]

def ofJson? : Nat → Json → Option Signature
  | n + 1, j => do
    let [some exports, some imports] ← j.record ["exports", "imports"] | none
    return ⟨← Json.list ExportSig.ofJson? n exports, ← Json.list ImportSig.ofJson? n imports⟩
  | 0, _ => none

def ofText? (s : String) : Option Signature :=
  Json.parse? s >>= ofJson? Json.textAllowance

end Signature

/-! ### TOML -/

/-- one `key = value` line -/
def tomlLine (key value : String) : String := key ++ " = " ++ value ++ "\n"

def ExportSig.toToml? (e : ExportSig) : Option String := do
  let name ← Toml.quote? e.name
  let kind ← Toml.quote? e.kind.name
  let arity := match e.arity with
    | some n => tomlLine "arity" n.toNat.repr
    | none => ""
  return "[[exports]]\n" ++ tomlLine "name" name ++ tomlLine "kind" kind ++ arity

def ImportSig.toToml? (i : ImportSig) : Option String := do
  let module ← Toml.quote? i.module
  let name ← Toml.quote? i.name
  return "[[imports]]\n" ++ tomlLine "module" module ++ tomlLine "name" name
    ++ tomlLine "arity" i.arity.toNat.repr

/-- One table per export and import with blank lines between them, unless a name cannot be quoted.
That there are no imports is said first, since a plain value cannot follow a table. -/
def Signature.toToml? (s : Signature) : Option String := do
  let exports ← s.exports.mapM ExportSig.toToml?
  let imports ← s.imports.mapM ImportSig.toToml?
  let first := if s.imports.isEmpty then [tomlLine "imports" "[]"] else []
  return "\n".intercalate (first ++ exports ++ imports)

end AnfWasm.Wasm
