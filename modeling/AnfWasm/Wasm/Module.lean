import AnfWasm.Span
import AnfWasm.Wasm.Instr

/-!
# Modules

A module has one memory of one page, one global (the heap pointer, global `0`, which starts at
zero), imported functions, and functions of its own.  In the function index space the imports come
first.
-/

namespace AnfWasm.Wasm

/-- The type of a local.  All values are words. -/
inductive ValType where
  | i32
deriving DecidableEq

/-- The type of a function that takes `arity` words and gives one back. -/
structure FuncType where
  arity : Nat
deriving DecidableEq

structure ImportDef where
  module : String
  name : String
  arity : UInt32
  typeIndex : Nat
deriving DecidableEq

structure FuncDef where
  name : String
  /-- the name under which the host sees the function -/
  exportName : Option String
  typeIndex : Nat
  arity : Nat
  /-- the number of locals after the parameters -/
  locals : Nat
  code : Code
  span : Option Span

structure Module where
  /-- the source file of the program -/
  source : Option String
  types : List FuncType
  imports : List ImportDef
  functions : List FuncDef

/-- the name of the entry function -/
def entryName : String := "_start"

/-- the name under which the memory is exported -/
def memoryName : String := "memory"

/-- the global that points at free memory -/
def heapPointer : Nat := 0

namespace Module

/-- The exported functions with their function indices. -/
def exportsFrom (index : Nat) : List FuncDef → List (Nat × FuncDef × String)
  | [] => []
  | f :: fs =>
    match f.exportName with
    | some name => (index, f, name) :: exportsFrom (index + 1) fs
    | none => exportsFrom (index + 1) fs

def exports (m : Module) : List (Nat × FuncDef × String) :=
  exportsFrom m.imports.length m.functions

def exportNames (m : Module) : List String := m.functions.filterMap (·.exportName)

end Module

end AnfWasm.Wasm
