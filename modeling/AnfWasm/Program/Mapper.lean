import AnfWasm.Program.Basic

/-!
# Mapping a program with hooks

A `Mapper` has two hooks per kind of node.  The enter hook sees a node before its parts are
mapped and may replace it, the leave hook sees it afterwards; the program is rebuilt from what
the hooks return.  Bindings of a let come in order and before its body, operands left to right and
before the arms of a branch, functions in order and before the entry.

An enter hook can make a program deeper while it is walked, so the walk is given how deep it may
go.  `Program.mapM` allows the height of the program and `slack` levels more, and hooks that do not
grow what they enter need no slack.
-/

namespace AnfWasm

structure Mapper (m : Type → Type) where
  enterProgram : Program → m Program
  leaveProgram : Program → m Program
  enterFunc : Func → m Func
  leaveFunc : Func → m Func
  enterExpr : Expr → m Expr
  leaveExpr : Expr → m Expr
  enterBinding : Binding → m Binding
  leaveBinding : Binding → m Binding
  enterComp : Comp → m Comp
  leaveComp : Comp → m Comp
  enterImm : Imm → m Imm
  leaveImm : Imm → m Imm

/-- no hook does anything -/
def Mapper.identity (m : Type → Type) [Monad m] : Mapper m where
  enterProgram := pure
  leaveProgram := pure
  enterFunc := pure
  leaveFunc := pure
  enterExpr := pure
  leaveExpr := pure
  enterBinding := pure
  leaveBinding := pure
  enterComp := pure
  leaveComp := pure
  enterImm := pure
  leaveImm := pure

/-! ### height -/

mutual

def Comp.height : Comp → Nat
  | .branch _ thenArm elseArm => 1 + max thenArm.height elseArm.height
  | _ => 1

def Binding.height : Binding → Nat
  | ⟨_, comp, _⟩ => 1 + comp.height

def Binding.heights : List Binding → Nat
  | [] => 0
  | b :: bs => max b.height (Binding.heights bs)

def Expr.height : Expr → Nat
  | .letIn _ bindings body => 1 + max (Binding.heights bindings) body.height
  | .seq comp rest => 1 + max comp.height rest.height
  | .comp comp => 1 + comp.height

end

def Func.height (f : Func) : Nat := f.body.height

def Program.height (p : Program) : Nat :=
  max ((p.functions.map Func.height).foldr max 0) p.body.height

/-! ### the walk -/

section
variable {m : Type → Type} [Monad m] (μ : Mapper m)

def Imm.mapM (a : Imm) : m Imm := do
  let a ← μ.enterImm a
  μ.leaveImm a

mutual

def Comp.mapM : Nat → Comp → m Comp
  | 0, c => pure c
  | n + 1, c => do
    let c ← μ.enterComp c
    let c ← match c with
      | .imm a => do pure (.imm (← a.mapM μ))
      | .prim1 op a => do pure (.prim1 op (← a.mapM μ))
      | .prim2 op a b => do
        let a ← a.mapM μ
        let b ← b.mapM μ
        pure (.prim2 op a b)
      | .adt typeTag variant args => do pure (.adt typeTag variant (← args.mapM (Imm.mapM μ)))
      | .tuple args => do pure (.tuple (← args.mapM (Imm.mapM μ)))
      | .tupleGet index a => do pure (.tupleGet index (← a.mapM μ))
      | .boxNew a => do pure (.boxNew (← a.mapM μ))
      | .unbox a => do pure (.unbox (← a.mapM μ))
      | .boxSet cell value => do
        let cell ← cell.mapM μ
        let value ← value.mapM μ
        pure (.boxSet cell value)
      | .call f args => do pure (.call f (← args.mapM (Imm.mapM μ)))
      | .callForeign f args => do pure (.callForeign f (← args.mapM (Imm.mapM μ)))
      | .branch cond thenArm elseArm => do
        let cond ← cond.mapM μ
        let thenArm ← Expr.mapM n thenArm
        let elseArm ← Expr.mapM n elseArm
        pure (.branch cond thenArm elseArm)
      | .fail code => pure (.fail code)
    μ.leaveComp c

def Binding.mapM : Nat → Binding → m Binding
  | 0, b => pure b
  | n + 1, b => do
    let b ← μ.enterBinding b
    let comp ← Comp.mapM n b.comp
    μ.leaveBinding ⟨b.id, comp, b.span⟩

def Expr.mapM : Nat → Expr → m Expr
  | 0, e => pure e
  | n + 1, e => do
    let e ← μ.enterExpr e
    let e ← match e with
      | .letIn kind bindings body => do
        let bindings ← bindings.mapM (Binding.mapM n)
        let body ← Expr.mapM n body
        pure (.letIn kind bindings body)
      | .seq comp rest => do
        let comp ← Comp.mapM n comp
        let rest ← Expr.mapM n rest
        pure (.seq comp rest)
      | .comp comp => do pure (.comp (← Comp.mapM n comp))
    μ.leaveExpr e

end

def Func.mapM (n : Nat) (f : Func) : m Func := do
  let f ← μ.enterFunc f
  let body ← f.body.mapM μ (n + f.height)
  μ.leaveFunc { f with body }

def Program.mapM (slack : Nat) (p : Program) : m Program := do
  let p ← μ.enterProgram p
  let functions ← p.functions.mapM (Func.mapM μ slack)
  let body ← p.body.mapM μ (slack + p.body.height)
  μ.leaveProgram { p with functions, body }

end

end AnfWasm
