/-!
# Instructions

The WebAssembly instructions that compiled programs consist of.  Every value is a 32-bit word, and a
branch is one structured instruction with its two blocks of code.
-/

namespace AnfWasm.Wasm

/-- Operations that take two words. -/
inductive BinOp where
  | add
  | sub
  | mul
  | divS
  | eq
  | ne
  | ltS
  | leS
  | gtS
  | geS
  | and
  | or
deriving DecidableEq

inductive Instr where
  | unreachable
  | drop
  | localGet (index : Nat)
  | localSet (index : Nat)
  | globalGet (index : Nat)
  | globalSet (index : Nat)
  | load (offset : Nat)
  | store (offset : Nat)
  | const (value : Int32)
  | eqz
  | binary (op : BinOp)
  | call (index : Nat)
  /-- leaves one word, whichever block runs -/
  | ifElse (thenCode elseCode : List Instr)

abbrev Code := List Instr

end AnfWasm.Wasm
