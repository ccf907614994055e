import AnfWasm.Program.Printer

/-!
# Scoping

`Program.check` finds the first place where a program breaks the scoping rules: every identifier is
bound once in the whole program, an operand is used only where its binding is visible, and a call
names a function or an import with the right number of arguments.

The check is one walk with one set of visible stamps: a binder puts its stamp in, and the end of its
let takes it out again.  The walk goes on after a violation, and the first one is the answer.
-/

namespace AnfWasm

inductive Violation where
  | unbound (x : Ident)
  | rebound (x : Ident)
  | notAFunction (x : Ident)
  | notAnImport (x : Ident)
  | arityMismatch (callee : Ident) (expected found : Nat)
deriving DecidableEq

def Violation.message : Violation → String
  | .unbound x => "`" ++ x.text ++ "` is referenced outside the scope of its binding"
  | .rebound x => "`" ++ x.text ++ "` is bound more than once"
  | .notAFunction x => "`" ++ x.text ++ "` is called but is not a function of the program"
  | .notAnImport x => "`" ++ x.text ++ "` is called as a foreign function but is not imported"
  | .arityMismatch f expected found =>
    "`" ++ f.name ++ "` expects " ++ expected.repr ++ " arguments but is applied to " ++ found.repr

/-- The arities of what can be called, by stamp. -/
structure Globals where
  imports : List (UInt32 × Nat)
  functions : List (UInt32 × Nat)

def Program.globals (p : Program) : Globals where
  imports := p.imports.map fun i => (i.id.stamp, i.arity.toNat)
  functions := p.functions.map fun f => (f.id.stamp, f.params.length)

namespace Scope

/-- What the walk knows at a place of the program. -/
structure Checker where
  /-- every binder met so far -/
  bound : List UInt32
  /-- the values that can be used here -/
  visible : List UInt32
  first? : Option Violation

namespace Checker

def start : Checker := ⟨[], [], none⟩

/-- the first violation stays: later ones are usually consequences of it -/
def report (s : Checker) (v : Violation) : Checker :=
  match s.first? with
  | some _ => s
  | none => { s with first? := some v }

/-- a binder that is not a value -/
def bindGlobal (s : Checker) (x : Ident) : Checker :=
  if s.bound.contains x.stamp then s.report (.rebound x)
  else { s with bound := x.stamp :: s.bound }

def bind (s : Checker) (x : Ident) : Checker :=
  let s := s.bindGlobal x
  { s with visible := x.stamp :: s.visible }

/-- the end of the scope of a binder -/
def forget (s : Checker) (x : Ident) : Checker :=
  { s with visible := s.visible.filter (· ≠ x.stamp) }

def imm (s : Checker) : Imm → Checker
  | .id x => if s.visible.contains x.stamp then s else s.report (.unbound x)
  | .const _ => s

def imms (s : Checker) (args : List Imm) : Checker := args.foldl imm s

/-- the callee is in the table and takes that many arguments -/
def callee (s : Checker) (table : List (UInt32 × Nat)) (missing : Ident → Violation) (f : Ident)
    (found : Nat) : Checker :=
  match table.lookup f.stamp with
  | none => s.report (missing f)
  | some expected =>
    if expected = found then s else s.report (.arityMismatch f expected found)

mutual

def comp (g : Globals) (s : Checker) : Comp → Checker
  | .call f args => (s.callee g.functions .notAFunction f args.length).imms args
  | .callForeign f args => (s.callee g.imports .notAnImport f args.length).imms args
  | .branch cond thenArm elseArm => expr g (expr g (s.imm cond) thenArm) elseArm
  | c => s.imms c.operands

/-- each right-hand side sees the bindings before it -/
def sequential (g : Globals) (s : Checker) : List Binding → Checker
  | [] => s
  | ⟨id, c, _⟩ :: bs => sequential g ((comp g s c).bind id) bs

/-- the right-hand sides of a group, which is already bound -/
def group (g : Globals) (s : Checker) : List Binding → Checker
  | [] => s
  | ⟨_, c, _⟩ :: bs => group g (comp g s c) bs

def expr (g : Globals) (s : Checker) : Expr → Checker
  | .letIn .sequential bindings body =>
    (bindings.map Binding.id).foldl forget (expr g (sequential g s bindings) body)
  | .letIn .recursive bindings body =>
    let ids := bindings.map Binding.id
    ids.foldl forget (expr g (group g (ids.foldl bind s) bindings) body)
  | .seq c rest => expr g (comp g s c) rest
  | .comp c => comp g s c

end

/-- a function starts with nothing visible, and what was visible around it comes back after it -/
def func (g : Globals) (s : Checker) (f : Func) : Checker :=
  let inner := expr g (f.params.foldl bind { s with visible := [] }) f.body
  { inner with visible := s.visible }

def program (p : Program) : Checker :=
  let s := (p.imports.map Import.id).foldl bindGlobal start
  let s := (p.functions.map Func.id).foldl bindGlobal s
  let s := p.functions.foldl (func p.globals) s
  expr p.globals s p.body

end Checker

end Scope

/-- the first violation, or nothing to object to -/
def Program.check (p : Program) : Except Violation Unit :=
  match (Scope.Checker.program p).first? with
  | some v => .error v
  | none => .ok ()

end AnfWasm
