import AnfWasm.Log
import AnfWasm.Lowering.Body
import AnfWasm.Lowering.Interner

/-!
# From programs to modules

`Program.lower` declares the imports and the functions, lowers the functions in order and the entry
expression after them, and checks that no two exports have one name.  Function types are interned:
one entry per arity, in the order of first use.
-/

namespace AnfWasm

namespace Lowering

open Wasm

inductive Error where
  | declaredTwice (x : Ident)
  | inFunction (f : Ident) (cause : BodyError)
  | inEntry (cause : BodyError)
  | exportedTwice (name : String)
deriving DecidableEq

/-- the message and the message of its cause, if it has one -/
def Error.chain : Error → List String
  | .declaredTwice x => ["`" ++ x.text ++ "` is declared more than once"]
  | .inFunction f cause => ["failed to lower function `" ++ f.text ++ "`", cause.message]
  | .inEntry cause => ["failed to lower the entry expression", cause.message]
  | .exportedTwice name => ["export name `" ++ name ++ "` is used more than once"]

/-- What is built while a program is lowered. -/
structure Build where
  interner : Interner Nat
  log : List LogRecord

def Build.start : Build := ⟨.empty, []⟩

abbrev Make := EStateM Error Build

/-- the index of the type of that arity -/
def intern (arity : Nat) : Make Nat := do
  let (i, interner) := (← get).interner.intern ⟨arity⟩
  modify fun b => { b with interner }
  return i

/-- a callee whose stamp has to be new -/
def declare (callees : Callees) (x : Ident) (c : Callee) : Make Callees :=
  if (callees.lookup x.stamp).isSome then throw (.declaredTwice x)
  else return (x.stamp, c) :: callees

def declareImports (callees : Callees) (index : Nat) :
    List Import → Make (Callees × List ImportDef)
  | [] => return (callees, [])
  | i :: is => do
    let callees ← declare callees i.id ⟨index, i.arity.toNat, true⟩
    let typeIndex ← intern i.arity.toNat
    let (callees, rest) ← declareImports callees (index + 1) is
    return (callees, ⟨i.module, i.name, i.arity, typeIndex⟩ :: rest)

def declareFuncs (callees : Callees) (index : Nat) : List Func → Make Callees
  | [] => return callees
  | f :: fs => do
    let callees ← declare callees f.id ⟨index, f.params.length, false⟩
    declareFuncs callees (index + 1) fs

def failureRecord (code : UInt32) : LogRecord :=
  ⟨.trace, .lowering, "lowering failure with code " ++ code.toNat.repr ++ " to a trap"⟩

/-- The code of a function body and the number of its locals, parameters included. -/
def lowerBody (callees : Callees) (params : List Ident) (body : Expr)
    (context : BodyError → Error) : Make (Code × Nat) := do
  match lowerExpr callees body (Frame.ofParams params) with
  | .ok code frame =>
    modify fun b => { b with log := b.log ++ frame.failures.map failureRecord }
    return (code, frame.count)
  | .error e frame =>
    modify fun b => { b with log := b.log ++ frame.failures.map failureRecord }
    throw (context e)

def lowerFunc (callees : Callees) (f : Func) : Make FuncDef := do
  let (code, count) ← lowerBody callees f.params f.body (.inFunction f.id)
  let arity := f.params.length
  let typeIndex ← intern arity
  return {
    name := f.id.name
    exportName := if f.exported then some f.id.name else none
    typeIndex, arity, code
    locals := count - arity
    span := f.span }

def lowerFuncs (callees : Callees) : List Func → Make (List FuncDef)
  | [] => return []
  | f :: fs => do
    let d ← lowerFunc callees f
    let ds ← lowerFuncs callees fs
    return d :: ds

def lowerEntry (callees : Callees) (body : Expr) : Make FuncDef := do
  let (code, count) ← lowerBody callees [] body .inEntry
  let typeIndex ← intern 0
  return {
    name := entryName
    exportName := some entryName
    typeIndex, code
    arity := 0
    locals := count
    span := none }

/-- the first name that was seen before -/
def repeated? (seen : List String) : List String → Option String
  | [] => none
  | n :: ns => if seen.contains n then some n else repeated? (n :: seen) ns

def summary (m : Module) : LogRecord :=
  ⟨.debug, .module, "lowered " ++ m.imports.length.repr ++ " import(s) and "
    ++ m.functions.length.repr ++ " function(s) using " ++ m.types.length.repr ++ " type(s)"⟩

def lowerProgram (p : Program) : Make Module := do
  let (callees, imports) ← declareImports [] 0 p.imports
  let callees ← declareFuncs callees p.imports.length p.functions
  let functions ← lowerFuncs callees p.functions
  let entry ← lowerEntry callees p.body
  let m : Module := {
    source := p.source
    types := (← get).interner.types
    imports
    functions := functions ++ [entry] }
  match repeated? [memoryName] m.exportNames with
  | some name => throw (.exportedTwice name)
  | none =>
    modify fun b => { b with log := b.log ++ [summary m] }
    return m

end Lowering

/-- The module of a program, or why there is none, and what the log says about it. -/
def Program.lower (p : Program) : Except Lowering.Error Wasm.Module × List LogRecord :=
  match Lowering.lowerProgram p Lowering.Build.start with
  | .ok m b => (.ok m, b.log)
  | .error e b => (.error e, b.log)

end AnfWasm
