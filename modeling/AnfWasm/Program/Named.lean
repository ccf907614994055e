import AnfWasm.Program.Supply

/-!
# Expressions over plain names

A small surface form in which operands are written by name.  `Named.Expr.resolve` gives every
binder a fresh identifier and every name the innermost identifier in scope that has it.

Stamps are handed out in the order of construction: in a sequential let each right-hand side comes
before its identifier, in a recursive one all identifiers come first.
-/

namespace AnfWasm.Named

inductive Operand where
  | const (value : Constant)
  | name (name : String)

inductive Comp where
  | imm (value : Operand)
  | tuple (args : List Operand)
  | adt (typeTag variant : UInt32) (args : List Operand)

inductive Expr where
  | comp (comp : Comp)
  | seq (comp : Comp) (rest : Expr)
  | letIn (kind : LetKind) (bindings : List (String × Comp)) (body : Expr)

inductive Error where
  | unknown (name : String)
  | exhausted (name : String)

structure State where
  supply : Supply
  /-- the operands made so far -/
  operands : List Imm

abbrev Resolve := StateT State (Except Error)

/-- identifiers by name, the innermost first -/
abbrev Env := List (String × Ident)

def fresh (name : String) : Resolve Ident := do
  match (← get).supply.fresh? name with
  | some (x, supply) =>
    modify fun s => { s with supply }
    return x
  | none => throw (.exhausted name)

def Operand.resolve (env : Env) (a : Operand) : Resolve Imm := do
  let value ← match a with
    | .const c => pure (Imm.const c)
    | .name n =>
      match env.lookup n with
      | some x => pure (Imm.id x)
      | none => throw (Error.unknown n)
  modify fun s => { s with operands := s.operands ++ [value] }
  return value

def Comp.resolve (env : Env) : Comp → Resolve AnfWasm.Comp
  | .imm a => do return .imm (← a.resolve env)
  | .tuple args => do return .tuple (← args.mapM (Operand.resolve env))
  | .adt typeTag variant args => do return .adt typeTag variant (← args.mapM (Operand.resolve env))

def resolveSequential (env : Env) : List (String × Comp) → Resolve (List Binding × Env)
  | [] => return ([], env)
  | (name, c) :: bs => do
    let comp ← c.resolve env
    let id ← fresh name
    let (rest, env) ← resolveSequential ((name, id) :: env) bs
    return (⟨id, comp, none⟩ :: rest, env)

def freshAll (env : Env) : List String → Resolve (List Ident × Env)
  | [] => return ([], env)
  | name :: names => do
    let id ← fresh name
    let (ids, env) ← freshAll ((name, id) :: env) names
    return (id :: ids, env)

def Expr.resolve (env : Env) : Expr → Resolve AnfWasm.Expr
  | .comp c => do return .comp (← c.resolve env)
  | .seq c rest => do
    let c ← c.resolve env
    let rest ← rest.resolve env
    return .seq c rest
  | .letIn .sequential bindings body => do
    let (bindings, env) ← resolveSequential env bindings
    let body ← body.resolve env
    return .letIn .sequential bindings body
  | .letIn .recursive bindings body => do
    let (ids, env) ← freshAll env (bindings.map (·.1))
    let comps ← bindings.mapM fun b => b.2.resolve env
    let body ← body.resolve env
    return .letIn .recursive ((ids.zip comps).map fun b => ⟨b.1, b.2, none⟩) body

/-- The expression with fresh identifiers, and its operands in the order they were made. -/
def Expr.build (e : Expr) : Except Error (AnfWasm.Expr × List Imm) :=
  match (e.resolve []).run ⟨.start, []⟩ with
  | .ok (e, s) => .ok (e, s.operands)
  | .error err => .error err

end AnfWasm.Named
