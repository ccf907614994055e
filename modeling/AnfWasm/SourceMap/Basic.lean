import AnfWasm.Json.Printer
import AnfWasm.Json.Reader
import AnfWasm.SourceMap.Vlq
import AnfWasm.Span

/-!
# Source maps

A source map says for positions of a generated file where they come from.  `MapBuilder` collects
mappings in any order; `MapBuilder.build` sorts them by generated position, those of one position
in the order of their arrival, and writes each as the difference to the one before it.
-/

namespace AnfWasm

structure Mapping where
  generated : Loc
  /-- an index into the sources -/
  source : UInt32
  /-- where in that source -/
  position : Loc
  /-- an index into the names -/
  name : Option UInt32
deriving DecidableEq

/-- A source map of revision 3. -/
structure SourceMap where
  version : UInt32
  file : Option String
  sources : List String
  names : List String
  mappings : String
deriving DecidableEq

namespace SourceMap

def toJson (m : SourceMap) : Json :=
  .obj ([("version", .ofNat m.version.toNat)]
    ++ (match m.file with
      | some f => [("file", .str f)]
      | none => [])
    ++ [("sources", .strings m.sources), ("names", .strings m.names),
      ("mappings", .str m.mappings)])

def toText (m : SourceMap) : String := m.toJson.compact

def ofJson? : Nat → Json → Option SourceMap
  | n + 1, j => do
    let [some version, file, some sources, some names, some mappings] ←
      j.record ["version", "file", "sources", "names", "mappings"] | none
    return ⟨← version.uint32?, ← Json.orElse none (Json.nullable Json.str?) file,
      ← Json.list (fun _ => Json.str?) n sources, ← Json.list (fun _ => Json.str?) n names,
      ← mappings.str?⟩
  | 0, _ => none

def ofText? (s : String) : Option SourceMap :=
  Json.parse? s >>= ofJson? Json.textAllowance

/-! ### writing mappings -/

/-- The numbers of the last segment, from which the next one is told as differences. -/
structure Cursor where
  /-- the generated line -/
  line : Nat
  /-- the generated column, which starts again on each line -/
  column : Int
  source : Int
  sourceLine : Int
  sourceColumn : Int
  name : Int
  /-- is the next segment the first of its line? -/
  fresh : Bool

def Cursor.start : Cursor := ⟨0, 0, 0, 0, 0, 0, true⟩

/-- the cursor on a later line, and the semicolons that lead there -/
def Cursor.toLine (c : Cursor) (line : Nat) : List Char × Cursor :=
  if c.line < line then
    (List.replicate (line - c.line) ';', { c with line := line, column := 0, fresh := true })
  else ([], c)

def segment (c : Cursor) (m : Mapping) : List Char :=
  Vlq.encode (m.generated.column.toNat - c.column)
    ++ Vlq.encode (m.source.toNat - c.source)
    ++ Vlq.encode (m.position.line.toNat - c.sourceLine)
    ++ Vlq.encode (m.position.column.toNat - c.sourceColumn)
    ++ match m.name with
      | some n => Vlq.encode (n.toNat - c.name)
      | none => []

def Cursor.after (c : Cursor) (m : Mapping) : Cursor :=
  { c with
    column := m.generated.column.toNat
    source := m.source.toNat
    sourceLine := m.position.line.toNat
    sourceColumn := m.position.column.toNat
    name := (m.name.map fun n => (n.toNat : Int)).getD c.name
    fresh := false }

/-- the text of mappings that are sorted by generated position -/
def segments (c : Cursor) : List Mapping → List Char
  | [] => []
  | m :: ms =>
    let (breaks, c) := c.toLine m.generated.line.toNat
    breaks ++ (if c.fresh then [] else [',']) ++ segment c m ++ segments (c.after m) ms

def inOrder (a b : Mapping) : Bool := (a.generated.compare b.generated).isLE

end SourceMap

/-- Sources, names and mappings that were added so far. -/
structure MapBuilder where
  file : Option String
  sources : List String
  names : List String
  mappings : List Mapping

namespace MapBuilder

def ofFile (file : Option String) : MapBuilder := ⟨file, [], [], []⟩

/-- the index of a string, which is added if it is new -/
def intern (table : List String) (s : String) : UInt32 × List String :=
  match table.idxOf? s with
  | some i => (.ofNat i, table)
  | none => (.ofNat table.length, table ++ [s])

def addSource (b : MapBuilder) (s : String) : UInt32 × MapBuilder :=
  let (i, sources) := intern b.sources s
  (i, { b with sources })

def addName (b : MapBuilder) (s : String) : UInt32 × MapBuilder :=
  let (i, names) := intern b.names s
  (i, { b with names })

def addMapping (b : MapBuilder) (m : Mapping) : MapBuilder :=
  { b with mappings := b.mappings ++ [m] }

def build (b : MapBuilder) : SourceMap where
  version := 3
  file := b.file
  sources := b.sources
  names := b.names
  mappings := String.ofList
    (SourceMap.segments .start (b.mappings.mergeSort SourceMap.inOrder))

end MapBuilder

end AnfWasm
