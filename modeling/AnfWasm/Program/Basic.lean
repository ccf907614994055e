import AnfWasm.Span

/-!
# Programs in administrative normal form

Operands are immediate values (`Imm`), so every computation (`Comp`) is one step or a branch, and
an expression (`Expr`) is a chain of bindings and steps that ends in a computation.

Two identifiers are the same when their stamps are; the name is for display.  `Ident.same` is that
relation, and equality of identifiers stays equality of both fields.
-/

namespace AnfWasm

structure Ident where
  name : String
  stamp : UInt32
deriving DecidableEq, Inhabited

/-- identifiers are compared by stamp -/
def Ident.same (a b : Ident) : Bool := a.stamp = b.stamp

inductive Constant where
  | int (value : Int32)
  | bool (value : Bool)
  | unit
deriving DecidableEq, Inhabited

/-- A value that is there without computation. -/
inductive Imm where
  | id (ident : Ident)
  | const (constant : Constant)
deriving DecidableEq, Inhabited

inductive Prim1 where
  | not
  | neg
deriving DecidableEq

inductive Prim2 where
  | add
  | sub
  | mul
  | div
  | eq
  | ne
  | lt
  | le
  | gt
  | ge
  | and
  | or
deriving DecidableEq

/-- In a `sequential` let each right-hand side sees the bindings before it, in a `recursive` one
all of the group.  The body sees all bindings. -/
inductive LetKind where
  | sequential
  | recursive
deriving DecidableEq, Inhabited

mutual

inductive Comp where
  | imm (value : Imm)
  | prim1 (op : Prim1) (value : Imm)
  | prim2 (op : Prim2) (left right : Imm)
  | adt (typeTag variant : UInt32) (args : List Imm)
  | tuple (args : List Imm)
  | tupleGet (index : UInt32) (tuple : Imm)
  | boxNew (value : Imm)
  | unbox (cell : Imm)
  | boxSet (cell value : Imm)
  | call (callee : Ident) (args : List Imm)
  | callForeign (callee : Ident) (args : List Imm)
  | branch (cond : Imm) (thenArm elseArm : Expr)
  | fail (code : UInt32)

structure Binding where
  id : Ident
  comp : Comp
  span : Option Span

inductive Expr where
  | letIn (kind : LetKind) (bindings : List Binding) (body : Expr)
  | seq (comp : Comp) (rest : Expr)
  | comp (comp : Comp)

end

instance : Inhabited Comp := ⟨.imm default⟩
instance : Inhabited Expr := ⟨.comp default⟩
instance : Inhabited Binding := ⟨⟨default, default, none⟩⟩

/-- A function that the host provides as `module.name`. -/
structure Import where
  id : Ident
  module : String
  name : String
  arity : UInt32
deriving DecidableEq, Inhabited

/-- A function of the program.  Its body sees its parameters and no other value. -/
structure Func where
  id : Ident
  params : List Ident
  body : Expr
  exported : Bool
  span : Option Span
deriving Inhabited

/-- The functions of a module and its entry expression. -/
structure Program where
  source : Option String
  imports : List Import
  functions : List Func
  body : Expr
deriving Inhabited

def Imm.int (n : Int32) : Imm := .const (.int n)
def Imm.bool (b : Bool) : Imm := .const (.bool b)
def Imm.unit : Imm := .const .unit

/-- the identifier of an operand that is one -/
def Imm.id? : Imm → Option Ident
  | .id x => some x
  | .const _ => none

namespace Expr

def imm (value : Imm) : Expr := .comp (.imm value)

/-- one binding without a source position -/
def letOne (id : Ident) (comp : Comp) (body : Expr) : Expr :=
  .letIn .sequential [⟨id, comp, none⟩] body

end Expr

/-- the program that only has an entry expression -/
def Program.ofBody (body : Expr) : Program := ⟨none, [], [], body⟩

/-- the operands of a computation, left to right -/
def Comp.operands : Comp → List Imm
  | .imm a | .prim1 _ a | .tupleGet _ a | .boxNew a | .unbox a | .branch a _ _ => [a]
  | .prim2 _ a b | .boxSet a b => [a, b]
  | .adt _ _ args | .tuple args | .call _ args | .callForeign _ args => args
  | .fail _ => []

/-- the arms of a branch -/
def Comp.arms : Comp → List Expr
  | .branch _ thenArm elseArm => [thenArm, elseArm]
  | _ => []

end AnfWasm
