import AnfWasm.Bytes
import AnfWasm.Wasm.Signature
import Mathlib.Algebra.Group.Nat.Defs
import Mathlib.Data.Option.Basic

/-!
# Reading the binary format

A decoder for binary modules, by the grammar of the format: sections in their order with custom
sections around them, sizes and indices in unsigned LEB128 and constants in signed LEB128, each
within its number of bits.  Of the value types and instructions it knows those that modules here
have.  It does not go by what the encoder writes; a number may take more bytes than it needs, locals
may come in groups, and a branch may leave out its second block.

A reader gets the bytes that are left and where they start, and takes some of them away.
-/

namespace AnfWasm.Wasm

/-- the bytes that are left, and where they start -/
structure Input where
  position : Nat
  rest : Bytes

abbrev Reader := StateT Input Option

/-! ### what a module has, as it is read -/

structure ImportEntry where
  module : String
  name : String
  typeIndex : Nat
deriving DecidableEq

/-- the sizes of a memory in pages -/
structure Limits where
  min : Nat
  max : Option Nat
deriving DecidableEq

/-- a global of one word -/
structure GlobalEntry where
  mutable : Bool
  init : Code

structure ExportEntry where
  name : String
  kind : ExportKind
  index : Nat
deriving DecidableEq

structure BodyEntry where
  /-- where the body starts, after its size -/
  start : Nat
  /-- the number of locals after the parameters -/
  locals : Nat
  code : Code

inductive CustomEntry where
  | sourceMappingUrl (url : String)
  | other (name : String) (content : Bytes)
deriving DecidableEq

structure Decoded where
  types : List FuncType
  imports : List ImportEntry
  /-- the type indices of the functions -/
  functions : List Nat
  memories : List Limits
  globals : List GlobalEntry
  exports : List ExportEntry
  bodies : List BodyEntry
  customs : List CustomEntry

namespace Decoder

/-! ### bytes and numbers -/

def byte : Reader UInt8 := fun input =>
  match input.rest with
  | [] => none
  | b :: rest => some (b, ⟨input.position + 1, rest⟩)

/-- the next byte stays there -/
def peek : Reader (Option UInt8) := fun input => some (input.rest.head?, input)

def token (b : UInt8) : Reader Unit := do guard ((← byte) = b)

def take (n : Nat) : Reader Bytes := fun input =>
  if n ≤ input.rest.length then
    some (input.rest.take n, ⟨input.position + n, input.rest.drop n⟩)
  else none

/-- all that is left -/
def remaining : Reader Bytes := do take (← get).rest.length

/-- `r` has to use up the next `n` bytes -/
def within (n : Nat) (r : Reader α) : Reader α := fun input => do
  let (content, after) ← take n input
  match ← r ⟨input.position, content⟩ with
  | (a, ⟨_, []⟩) => some (a, after)
  | _ => none

/-- an unsigned number of so many bits -/
def unsigned (bits : Nat) : Reader Nat := do
  let n := (← byte).toNat
  if n < 128 then
    guard (n < 2 ^ bits)
    return n
  else if 7 < bits then
    return 128 * (← unsigned (bits - 7)) + (n - 128)
  else failure
termination_by bits

/-- a signed number of so many bits -/
def signed (bits : Nat) : Reader Int := do
  let n := (← byte).toNat
  if n < 64 then
    guard (n < 2 ^ (bits - 1))
    return n
  else if n < 128 then
    guard (128 ≤ n + 2 ^ (bits - 1))
    return n - 128
  else if 7 < bits then
    return 128 * (← signed (bits - 7)) + (n - 128)
  else failure
termination_by bits

def u32 : Reader Nat := unsigned 32

def times (r : Reader α) : Nat → Reader (List α)
  | 0 => return []
  | n + 1 => return (← r) :: (← times r n)

/-- items after their number -/
def vec (r : Reader α) : Reader (List α) := do times r (← u32)

/-- something after its size in bytes -/
def sized (r : Reader α) : Reader α := do within (← u32) r

def name : Reader String := do
  match utf8? (← take (← u32)) with
  | some s => return s
  | none => failure

/-! ### instructions -/

def binOp? : UInt8 → Option BinOp
  | 0x6a => some .add
  | 0x6b => some .sub
  | 0x6c => some .mul
  | 0x6d => some .divS
  | 0x46 => some .eq
  | 0x47 => some .ne
  | 0x48 => some .ltS
  | 0x4c => some .leS
  | 0x4a => some .gtS
  | 0x4e => some .geS
  | 0x71 => some .and
  | 0x72 => some .or
  | _ => none

/-- the offset of an access to a word, which is aligned to `2 ^ 2` bytes -/
def memArg : Reader Nat := do
  guard ((← u32) = 2)
  unsigned 64

/-- an instruction without blocks, after its first byte -/
def plain : UInt8 → Reader Instr
  | 0x00 => return .unreachable
  | 0x1a => return .drop
  | 0x20 => return .localGet (← u32)
  | 0x21 => return .localSet (← u32)
  | 0x23 => return .globalGet (← u32)
  | 0x24 => return .globalSet (← u32)
  | 0x28 => return .load (← memArg)
  | 0x36 => return .store (← memArg)
  | 0x41 => return .const (.ofInt (← signed 32))
  | 0x45 => return .eqz
  | 0x10 => return .call (← u32)
  | b =>
    match binOp? b with
    | some op => return .binary op
    | none => failure

/-- the one value type -/
def wordType : Reader Unit := token 0x7f

/-- the code of a block that ends with `end` -/
def closed (r : Reader (Code × UInt8)) : Reader Code := do
  let (code, stop) ← r
  guard (stop = 0x0b)
  return code

/-- Instructions up to the end of their block, and the byte that ends it, which is that of `else` or
`end`.  With as much fuel as there are bytes it never runs out. -/
def block : Nat → Reader (Code × UInt8)
  | 0 => failure
  | fuel + 1 => do
    let b ← byte
    if b = 0x05 ∨ b = 0x0b then
      return ([], b)
    else if b = 0x04 then
      wordType
      let (thenCode, stop) ← block fuel
      let elseCode ← if stop = 0x05 then closed (block fuel) else pure []
      let (code, stop) ← block fuel
      return (.ifElse thenCode elseCode :: code, stop)
    else
      let i ← plain b
      let (code, stop) ← block fuel
      return (i :: code, stop)

def expr : Reader Code := do closed (block (← get).rest.length)

/-! ### sections -/

def funcType : Reader FuncType := do
  token 0x60
  let params ← vec wordType
  let results ← vec wordType
  guard (results.length = 1)
  return ⟨params.length⟩

/-- only functions are imported -/
def importEntry : Reader ImportEntry := do
  let module ← name
  let name ← name
  token 0x00
  return ⟨module, name, ← u32⟩

def limits : Reader Limits := do
  match ← byte with
  | 0x00 => return ⟨← u32, none⟩
  | 0x01 => return ⟨← u32, some (← u32)⟩
  | _ => failure

def globalEntry : Reader GlobalEntry := do
  wordType
  match ← byte with
  | 0x00 => return ⟨false, ← expr⟩
  | 0x01 => return ⟨true, ← expr⟩
  | _ => failure

def exportEntry : Reader ExportEntry := do
  let name ← name
  match ← byte with
  | 0x00 => return ⟨name, .function, ← u32⟩
  | 0x02 => return ⟨name, .memory, ← u32⟩
  | _ => failure

/-- the size of a group of locals of one type -/
def localGroup : Reader Nat := do
  let n ← u32
  wordType
  return n

def bodyEntry : Reader BodyEntry := sized do
  let start := (← get).position
  let locals := (← vec localGroup).foldl (· + ·) 0
  guard (locals < 2 ^ 32)
  return ⟨start, locals, ← expr⟩

def customEntry : Reader CustomEntry := sized do
  let name ← name
  if name = "sourceMappingURL" then return .sourceMappingUrl (← Decoder.name)
  else return .other name (← remaining)

/-- all custom sections up to another one; each takes up a byte of fuel -/
def customs : Nat → Reader (List CustomEntry)
  | 0 => return []
  | fuel + 1 => do
    if (← peek) = some 0x00 then
      token 0x00
      return (← customEntry) :: (← customs fuel)
    else return []

/-- the custom sections before a section, and the items of this section, which may be left out -/
def sectionOf (id : UInt8) (r : Reader α) : Reader (List CustomEntry × List α) := do
  let before ← customs (← get).rest.length
  if (← peek) = some id then
    token id
    return (before, ← sized (vec r))
  else return (before, [])

def magic : Bytes := [0x00, 0x61, 0x73, 0x6d]

def version : Bytes := [0x01, 0x00, 0x00, 0x00]

def module : Reader Decoded := do
  guard ((← take 4) = magic)
  guard ((← take 4) = version)
  let (customs₁, types) ← sectionOf 1 funcType
  let (customs₂, imports) ← sectionOf 2 importEntry
  let (customs₃, functions) ← sectionOf 3 u32
  let (customs₄, memories) ← sectionOf 5 limits
  let (customs₅, globals) ← sectionOf 6 globalEntry
  let (customs₆, exports) ← sectionOf 7 exportEntry
  let (customs₇, bodies) ← sectionOf 10 bodyEntry
  let customs₈ ← customs (← get).rest.length
  guard (functions.length = bodies.length)
  return {
    types, imports, functions, memories, globals, exports, bodies
    customs := customs₁ ++ customs₂ ++ customs₃ ++ customs₄ ++ customs₅ ++ customs₆ ++ customs₇
      ++ customs₈ }

end Decoder

/-- The module that the bytes are, all of them. -/
def decode (bs : Bytes) : Option Decoded :=
  match Decoder.module ⟨0, bs⟩ with
  | some (d, ⟨_, []⟩) => some d
  | _ => none

end AnfWasm.Wasm
