import AnfWasm.Data.Table
import AnfWasm.Program.Walk
import AnfWasm.Wasm.Module

/-!
# From expressions to instructions

An expression becomes code that leaves one word.  Parameters and let-bound identifiers live in
locals, one each, and constructions are written word by word at the heap pointer:

* a tuple is its arity and its elements;
* a variant is its type tag, its variant, its arity and its arguments;
* a cell is its content.

A recursive group can only be lowered when no right-hand side mentions the group.
-/

namespace AnfWasm

namespace Lowering

open Wasm

/-- What stops the lowering of one function. -/
inductive BodyError where
  | unknownLocal (x : Ident)
  | unknownCallee (f : Ident)
  | notAnImport (f : Ident)
  | notAFunction (f : Ident)
  | argumentCount (f : Ident) (arity found : Nat)
  | groupMention (binder mentioned : Ident)
deriving DecidableEq

def BodyError.message : BodyError → String
  | .unknownLocal x => "`" ++ x.text ++ "` is not a local value here"
  | .unknownCallee f => "call of unknown function `" ++ f.text ++ "`"
  | .notAnImport f => "`" ++ f.text ++ "` is not an import"
  | .notAFunction f => "`" ++ f.text ++ "` is not a function"
  | .argumentCount f arity found =>
    "`" ++ f.text ++ "` takes " ++ arity.repr ++ " argument(s) but is given " ++ found.repr
  | .groupMention x y =>
    "recursive binding `" ++ x.text ++ "` refers to `" ++ y.text
      ++ "`, which has no value layout"

/-- What can be called. -/
structure Callee where
  index : Nat
  arity : Nat
  foreign : Bool

/-- callees by stamp -/
abbrev Callees := List (UInt32 × Callee)

/-- The locals of the function that is lowered, and the codes of the failures met so far. -/
structure Frame where
  /-- the local of each stamp, the latest binding first -/
  slots : List (UInt32 × Nat)
  locals : Table Nat ValType
  failures : List UInt32

def Frame.start : Frame := ⟨[], .ofList [], []⟩

/-- the number of locals so far, which is the index of the next one -/
def Frame.count (f : Frame) : Nat := f.locals.size

/-- a new local for an identifier -/
def Frame.bind (f : Frame) (x : Ident) : Frame :=
  let (slot, locals) := f.locals.push .i32
  { f with slots := (x.stamp, slot) :: f.slots, locals }

def Frame.ofParams (params : List Ident) : Frame := params.foldl Frame.bind .start

/-- the frame stays what it was when lowering stops -/
abbrev Lower := EStateM BodyError Frame

/-- every value is one word of four bytes -/
def wordSize : Nat := 4

def constWord : Constant → Int32
  | .int n => n
  | .bool true => 1
  | .bool false => 0
  | .unit => 0

def lowerImm : Imm → Lower Code
  | .id x => do
    match (← get).slots.lookup x.stamp with
    | some slot => return [.localGet slot]
    | none => throw (.unknownLocal x)
  | .const c => return [.const (constWord c)]

def lowerImms : List Imm → Lower Code
  | [] => return []
  | a :: as => do
    let code ← lowerImm a
    let rest ← lowerImms as
    return code ++ rest

/-- One word of an object on the heap. -/
inductive Field where
  | const (value : Int32)
  | imm (value : Imm)

def lowerField : Field → Lower Code
  | .const n => return [.const n]
  | .imm a => lowerImm a

/-- stores the fields from word `index` of the object at the heap pointer -/
def storeFields (index : Nat) : List Field → Lower Code
  | [] => return []
  | f :: fs => do
    let value ← lowerField f
    let rest ← storeFields (index + 1) fs
    return .globalGet heapPointer :: value ++ .store (wordSize * index) :: rest

/-- Writes an object and moves the heap pointer past it; the address of the object stays on the
stack. -/
def allocate (fields : List Field) : Lower Code := do
  let stores ← storeFields 0 fields
  return .globalGet heapPointer :: stores ++
    [.globalGet heapPointer, .const (.ofNat (wordSize * fields.length)), .binary .add,
      .globalSet heapPointer]

def tupleFields (args : List Imm) : List Field := .const (.ofNat args.length) :: args.map .imm

def adtFields (typeTag variant : UInt32) (args : List Imm) : List Field :=
  .const typeTag.toInt32 :: .const variant.toInt32 :: .const (.ofNat args.length) :: args.map .imm

def binOp : Prim2 → BinOp
  | .add => .add
  | .sub => .sub
  | .mul => .mul
  | .div => .divS
  | .eq => .eq
  | .ne => .ne
  | .lt => .ltS
  | .le => .leS
  | .gt => .gtS
  | .ge => .geS
  | .and => .and
  | .or => .or

/-- the target of a call, called the way it was declared -/
def callee (callees : Callees) (foreign : Bool) (f : Ident) (found : Nat) : Lower Callee :=
  match callees.lookup f.stamp with
  | none => throw (.unknownCallee f)
  | some c =>
    if c.foreign ≠ foreign then throw (if foreign then .notAnImport f else .notAFunction f)
    else if c.arity ≠ found then throw (.argumentCount f c.arity found)
    else return c

def lowerCall (callees : Callees) (foreign : Bool) (f : Ident) (args : List Imm) : Lower Code := do
  let c ← callee callees foreign f args.length
  let code ← lowerImms args
  return code ++ [.call c.index]

/-- the first mention of the group by one of its right-hand sides -/
def groupMention? (bindings : List Binding) : Option (Ident × Ident) :=
  let group := bindings.map fun b => b.id.stamp
  bindings.findSome? fun b =>
    (b.comp.mentions.find? fun x => group.contains x.stamp).map fun x => (b.id, x)

def checkGroup (kind : LetKind) (bindings : List Binding) : Lower Unit :=
  match kind, groupMention? bindings with
  | .recursive, some (x, y) => throw (.groupMention x y)
  | _, _ => return

mutual

def lowerComp (callees : Callees) : Comp → Lower Code
  | .imm a => lowerImm a
  | .prim1 .not a => do
    let code ← lowerImm a
    return code ++ [.eqz]
  | .prim1 .neg a => do
    let code ← lowerImm a
    return .const 0 :: code ++ [.binary .sub]
  | .prim2 op a b => do
    let left ← lowerImm a
    let right ← lowerImm b
    return left ++ right ++ [.binary (binOp op)]
  | .adt typeTag variant args => allocate (adtFields typeTag variant args)
  | .tuple args => allocate (tupleFields args)
  | .tupleGet index a => do
    let code ← lowerImm a
    return code ++ [.load (wordSize * (index.toNat + 1))]
  | .boxNew a => allocate [.imm a]
  | .unbox a => do
    let code ← lowerImm a
    return code ++ [.load 0]
  | .boxSet cell value => do
    let cell ← lowerImm cell
    let value ← lowerImm value
    return cell ++ value ++ [.store 0, .const 0]
  | .call f args => lowerCall callees false f args
  | .callForeign f args => lowerCall callees true f args
  | .branch cond thenArm elseArm => do
    let cond ← lowerImm cond
    let thenCode ← lowerExpr callees thenArm
    let elseCode ← lowerExpr callees elseArm
    return cond ++ [.ifElse thenCode elseCode]
  | .fail code => do
    modify fun f => { f with failures := f.failures ++ [code] }
    return [.unreachable]

def lowerBindings (callees : Callees) : List Binding → Lower Code
  | [] => return []
  | ⟨id, comp, _⟩ :: bs => do
    let code ← lowerComp callees comp
    let slot := (← get).count
    modify fun f => f.bind id
    let rest ← lowerBindings callees bs
    return code ++ .localSet slot :: rest

def lowerExpr (callees : Callees) : Expr → Lower Code
  | .letIn kind bindings body => do
    checkGroup kind bindings
    let code ← lowerBindings callees bindings
    let rest ← lowerExpr callees body
    return code ++ rest
  | .seq comp rest => do
    let code ← lowerComp callees comp
    let rest ← lowerExpr callees rest
    return code ++ .drop :: rest
  | .comp comp => lowerComp callees comp

end

end Lowering

end AnfWasm
