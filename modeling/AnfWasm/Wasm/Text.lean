import AnfWasm.Program.Printer
import AnfWasm.Wasm.Binary

/-!
# The text format

`Module.toText` lists an encoded module for people: one line per type, import, export and
instruction, indices in comments, two blanks per level and at most fifty levels.
-/

namespace AnfWasm.Wasm

/-- A type has more parameters than a listing takes; `offset` is where their number stands. -/
structure TooManyParams where
  offset : Nat
deriving DecidableEq

namespace Text

/-- the number of parameters that a listing takes -/
def maxParams : Nat := 1000

/-- the deepest level that still moves a line to the right -/
def maxLevel : Nat := 50

def line (level : Nat) (s : String) : String :=
  Layout.spaces (2 * min level maxLevel) ++ s ++ "\n"

def hex (n : Nat) : String := String.ofList (Nat.toDigits 16 n)

def hexByte (b : UInt8) : String :=
  String.ofList [Nat.digitChar (b.toNat / 16), Nat.digitChar (b.toNat % 16)]

/-- characters that stand for themselves -/
def isPlain (n : Nat) : Bool :=
  0x20 ≤ n && n ≤ 0x7e && n ≠ '"'.toNat && n ≠ '\\'.toNat

def quoteName (s : String) : String :=
  "\"" ++ String.join (s.toList.map fun c =>
    if isPlain c.toNat then c.toString else "\\u\x7b" ++ hex c.toNat ++ "\x7d") ++ "\""

def quoteBytes (bs : Bytes) : String :=
  "\"" ++ String.join (bs.map fun b =>
    if isPlain b.toNat then (Char.ofNat b.toNat).toString else "\\" ++ hexByte b) ++ "\""

/-! ### instructions -/

def binOp : BinOp → String
  | .add => "add"
  | .sub => "sub"
  | .mul => "mul"
  | .divS => "div_s"
  | .eq => "eq"
  | .ne => "ne"
  | .ltS => "lt_s"
  | .leS => "le_s"
  | .gtS => "gt_s"
  | .geS => "ge_s"
  | .and => "and"
  | .or => "or"

/-- a zero offset is not shown -/
def memArg : Nat → String
  | 0 => ""
  | offset => " offset=" ++ offset.repr

mutual

/-- Instructions inside `depth` branches of a function. -/
def instr (depth : Nat) : Instr → String
  | .unreachable => line (depth + 2) "unreachable"
  | .drop => line (depth + 2) "drop"
  | .localGet i => line (depth + 2) ("local.get " ++ i.repr)
  | .localSet i => line (depth + 2) ("local.set " ++ i.repr)
  | .globalGet i => line (depth + 2) ("global.get " ++ i.repr)
  | .globalSet i => line (depth + 2) ("global.set " ++ i.repr)
  | .load offset => line (depth + 2) ("i32.load" ++ memArg offset)
  | .store offset => line (depth + 2) ("i32.store" ++ memArg offset)
  | .const n => line (depth + 2) ("i32.const " ++ n.toInt.repr)
  | .eqz => line (depth + 2) "i32.eqz"
  | .binary op => line (depth + 2) ("i32." ++ binOp op)
  | .call i => line (depth + 2) ("call " ++ i.repr)
  | .ifElse thenCode elseCode =>
    line (depth + 2) ("if (result i32) ;; label = @" ++ (depth + 1).repr)
      ++ instrs (depth + 1) thenCode ++ line (depth + 2) "else"
      ++ instrs (depth + 1) elseCode ++ line (depth + 2) "end"

def instrs (depth : Nat) : Code → String
  | [] => ""
  | i :: is => instr depth i ++ instrs depth is

end

/-! ### entries -/

/-- `keyword` and that many word types, or nothing -/
def words (keyword : String) (n : Nat) : String :=
  if n = 0 then "" else "(" ++ keyword ++ String.join (List.replicate n " i32") ++ ")"

/-- words with a blank after them, if there are any -/
def leading (s : String) : String := if s.isEmpty then "" else s ++ " "

def index (n : Nat) : String := "(;" ++ n.repr ++ ";)"

def signature (arity : Nat) : String := leading (words "param" arity) ++ "(result i32)"

def typeLines (n : Nat) : List FuncType → String
  | [] => ""
  | t :: ts =>
    line 1 ("(type " ++ index n ++ " (func " ++ signature t.arity ++ "))") ++ typeLines (n + 1) ts

def importLines (n : Nat) : List ImportDef → String
  | [] => ""
  | i :: is =>
    line 1 ("(import " ++ quoteName i.module ++ " " ++ quoteName i.name ++ " (func " ++ index n
      ++ " (type " ++ i.typeIndex.repr ++ ")))") ++ importLines (n + 1) is

def funcLines (n : Nat) : List FuncDef → String
  | [] => ""
  | f :: fs =>
    line 1 ("(func " ++ index n ++ " (type " ++ f.typeIndex.repr ++ ") " ++ signature f.arity)
      ++ (if f.locals = 0 then "" else line 2 (words "local" f.locals))
      ++ instrs 0 f.code ++ line 1 ")" ++ funcLines (n + 1) fs

def exportLines (m : Module) : String :=
  String.join (m.exports.map fun (n, _, exportName) =>
    line 1 ("(export " ++ quoteName exportName ++ " (func " ++ n.repr ++ "))"))
    ++ line 1 ("(export " ++ quoteName memoryName ++ " (memory 0))")

def urlLine (s : String) : String :=
  line 1 ("(@custom \"sourceMappingURL\" (after code) " ++ quoteBytes (Binary.name s) ++ ")")

/-- where the parameters of the types are counted, if the first type starts at `start` -/
def tooManyParams? (start : Nat) : List FuncType → Option TooManyParams
  | [] => none
  | t :: ts =>
    if maxParams < t.arity then some ⟨start + 1⟩
    else tooManyParams? (start + (Binary.funcType t).length) ts

/-- the position of the first type in the module -/
def typesStart (m : Module) : Nat :=
  let payload := Binary.vec (m.types.map Binary.funcType)
  Binary.magic.length + 1 + (Binary.size payload.length).length
    + (Binary.size m.types.length).length

end Text

def TooManyParams.message (e : TooManyParams) : String :=
  "function params size is out of bounds (at offset 0x" ++ Text.hex e.offset ++ ")"

/-- the message under the one of the listing that failed -/
def TooManyParams.chain (e : TooManyParams) : List String :=
  ["failed to disassemble the module", e.message]

namespace Module

open Text

def toText (m : Module) (url : Option String) : Except TooManyParams String :=
  match tooManyParams? (typesStart m) m.types with
  | some e => .error e
  | none => .ok ("(module\n" ++ typeLines 0 m.types ++ importLines 0 m.imports
      ++ funcLines m.imports.length m.functions
      ++ line 1 "(memory (;0;) 1)" ++ line 1 "(global (;0;) (mut i32) i32.const 0)"
      ++ exportLines m ++ (url.map urlLine).getD "" ++ ")\n")

end Module

end AnfWasm.Wasm
