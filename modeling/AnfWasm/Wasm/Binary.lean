import AnfWasm.Bytes
import AnfWasm.Wasm.Leb128
import AnfWasm.Wasm.Module

/-!
# The binary format

`Module.encode` writes a module section by section.  It also tells where the body of each function
starts, which is what a source map points at.
-/

namespace AnfWasm.Wasm

namespace Binary

def magic : Bytes := [0x00, 0x61, 0x73, 0x6d, 0x01, 0x00, 0x00, 0x00]

/-- the one value type that is used, a 32-bit word -/
def wordType : UInt8 := 0x7f

def size (n : Nat) : Bytes := Leb128.unsigned n

/-- bytes after their number -/
def sized (bs : Bytes) : Bytes := size bs.length ++ bs

/-- items after their number -/
def vec (items : List Bytes) : Bytes := size items.length ++ items.flatten

def name (s : String) : Bytes := sized (utf8 s)

def sectionOf (id : UInt8) (payload : Bytes) : Bytes := id :: sized payload

/-! ### instructions -/

def binOp : BinOp → UInt8
  | .add => 0x6a
  | .sub => 0x6b
  | .mul => 0x6c
  | .divS => 0x6d
  | .eq => 0x46
  | .ne => 0x47
  | .ltS => 0x48
  | .leS => 0x4c
  | .gtS => 0x4a
  | .geS => 0x4e
  | .and => 0x71
  | .or => 0x72

/-- words are aligned to four bytes -/
def memArg (offset : Nat) : Bytes := 0x02 :: Leb128.unsigned offset

mutual

def instr : Instr → Bytes
  | .unreachable => [0x00]
  | .drop => [0x1a]
  | .localGet i => 0x20 :: size i
  | .localSet i => 0x21 :: size i
  | .globalGet i => 0x23 :: size i
  | .globalSet i => 0x24 :: size i
  | .load offset => 0x28 :: memArg offset
  | .store offset => 0x36 :: memArg offset
  | .const n => 0x41 :: Leb128.signed n.toInt
  | .eqz => [0x45]
  | .binary op => [binOp op]
  | .call i => 0x10 :: size i
  | .ifElse thenCode elseCode =>
    0x04 :: wordType :: instrs thenCode ++ 0x05 :: instrs elseCode ++ [0x0b]

def instrs : Code → Bytes
  | [] => []
  | i :: is => instr i ++ instrs is

end

/-! ### sections -/

def funcType (t : FuncType) : Bytes :=
  0x60 :: vec (List.replicate t.arity [wordType]) ++ vec [[wordType]]

def importDef (i : ImportDef) : Bytes :=
  name i.module ++ name i.name ++ 0x00 :: size i.typeIndex

def exportDef (kind : UInt8) (exportName : String) (index : Nat) : Bytes :=
  name exportName ++ kind :: size index

/-- all locals have one type and make one group -/
def locals : Nat → Bytes
  | 0 => size 0
  | n => size 1 ++ size n ++ [wordType]

/-- a function body without its size -/
def body (f : FuncDef) : Bytes := locals f.locals ++ instrs f.code ++ [0x0b]

def typeSection (m : Module) : Bytes := sectionOf 1 (vec (m.types.map funcType))

/-- left out if nothing is imported -/
def importSection (m : Module) : Bytes :=
  if m.imports.isEmpty then [] else sectionOf 2 (vec (m.imports.map importDef))

def functionSection (m : Module) : Bytes :=
  sectionOf 3 (vec (m.functions.map fun f => size f.typeIndex))

/-- one memory of at least one page -/
def memorySection : Bytes := sectionOf 5 (vec [[0x00, 0x01]])

/-- one word that can be changed and starts at zero -/
def globalSection : Bytes := sectionOf 6 (vec [[wordType, 0x01, 0x41, 0x00, 0x0b]])

def exportSection (m : Module) : Bytes :=
  sectionOf 7 (vec (m.exports.map (fun (index, _, exportName) => exportDef 0x00 exportName index)
    ++ [exportDef 0x02 memoryName 0]))

def codePayload (m : Module) : Bytes := vec (m.functions.map fun f => sized (body f))

/-- where the map of a module is found -/
def urlSection (url : String) : Bytes := sectionOf 0 (name "sourceMappingURL" ++ name url)

/-- everything before the code section -/
def header (m : Module) : Bytes :=
  magic ++ typeSection m ++ importSection m ++ functionSection m ++ memorySection ++ globalSection
    ++ exportSection m

/-- where the bodies start if the first function starts at `start` with its size -/
def bodyStarts (start : Nat) : List FuncDef → List Nat
  | [] => []
  | f :: fs =>
    let encoded := sized (body f)
    (start + Leb128.width encoded) :: bodyStarts (start + encoded.length) fs

end Binary

/-- Where the body of a function starts in the module, after its size. -/
structure FuncOffset where
  name : String
  bodyOffset : UInt32
  span : Option Span
deriving DecidableEq

structure Encoded where
  bytes : Bytes
  /-- the functions of the module in order -/
  functions : List FuncOffset

namespace Module

open Binary

/-- The module as bytes, with a section that names its source map if there is one. -/
def encode (m : Module) (url : Option String) : Encoded :=
  let payload := codePayload m
  let start := header m ++ 0x0a :: size payload.length
  let starts := bodyStarts (start.length + (size m.functions.length).length) m.functions
  { bytes := start ++ payload ++ (url.map urlSection).getD []
    functions := (m.functions.zip starts).map fun (f, s) => ⟨f.name, .ofNat s, f.span⟩ }

end Module

end AnfWasm.Wasm
