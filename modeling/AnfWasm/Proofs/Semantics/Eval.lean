import AnfWasm.Program.Basic

/-!
# What programs mean

An expression is evaluated in an environment and changes a `World`: the calls that the host has
answered so far, the contents of the cells, and the number of words that constructions have taken.
Immutable values are their content, so two constructions of one value cannot be told apart; a cell
is its location.

An evaluation gives a value or stops (`Stop`): it traps, it meets an operand that is not bound or
not of the right type, or calls nest deeper than the budget allows.  The world is there in each
case.
-/

namespace AnfWasm

inductive Value where
  | int (n : Int32)
  | bool (b : Bool)
  | unit
  | adt (typeTag variant : UInt32) (args : List Value)
  | tuple (args : List Value)
  | box (location : Nat)

/-- A call of an imported function that the host has answered. -/
structure ForeignCall where
  module : String
  name : String
  args : List Value
  answer : Value

/-- The host answers a call of `module.name`; it knows the calls before it. -/
abbrev Host := List ForeignCall → String → String → List Value → Value

structure World where
  /-- the calls of imported functions, in order -/
  trace : List ForeignCall
  /-- the content of each cell, by location -/
  store : List Value
  /-- the words taken by constructions -/
  words : Nat

def World.start : World := ⟨[], [], 0⟩

/-- the world after a call -/
def World.answered (w : World) (c : ForeignCall) : World := { w with trace := w.trace ++ [c] }

inductive Stop where
  | trap
  /-- an operand is unbound or has the wrong type -/
  | error
  /-- calls nest too deep -/
  | exhausted
deriving DecidableEq

abbrev Eval := EStateM Stop World

namespace Eval

abbrev Result (α : Type) := EStateM.Result Stop World α

/-- what can be told from outside when an evaluation has ended -/
structure Observation where
  outcome : Except Stop Value
  trace : List ForeignCall
  store : List Value

def observe : Result Value → Observation
  | .ok v w => ⟨.ok v, w.trace, w.store⟩
  | .error e w => ⟨.error e, w.trace, w.store⟩

end Eval

/-- values by stamp -/
abbrev Env := UInt32 → Option Value

namespace Env

def empty : Env := fun _ => none

def set (env : Env) (stamp : UInt32) (v : Value) : Env :=
  fun n => if n = stamp then some v else env n

def setAll (env : Env) : List Ident → List Value → Env
  | x :: xs, v :: vs => (env.set x.stamp v).setAll xs vs
  | _, _ => env

end Env

/-! ### operations on values -/

def Constant.value : Constant → Value
  | .int n => .int n
  | .bool b => .bool b
  | .unit => .unit

def Imm.value? (env : Env) : Imm → Option Value
  | .id x => env x.stamp
  | .const c => some c.value

/-- all values, if they are there -/
def collect : List (Option Value) → Option (List Value)
  | [] => some []
  | some v :: os => (collect os).map (v :: ·)
  | none :: _ => none

def values? (env : Env) (args : List Imm) : Option (List Value) :=
  collect (args.map (Imm.value? env))

/-- the component of a tuple -/
def Value.element? (index : Nat) : Value → Option Value
  | .tuple vs => vs[index]?
  | _ => none

def Value.location? : Value → Option Nat
  | .box l => some l
  | _ => none

def Prim1.apply : Prim1 → Value → Option Value
  | .not, .bool b => some (.bool !b)
  | .neg, .int n => some (.int (-n))
  | _, _ => none

/-- Numbers wrap around.  A division by zero traps, and so does the one quotient that is too
large. -/
def Prim2.onInts (m n : Int32) : Prim2 → Except Stop Value
  | .add => .ok (.int (m + n))
  | .sub => .ok (.int (m - n))
  | .mul => .ok (.int (m * n))
  | .div => if n = 0 ∨ m = .minValue ∧ n = -1 then .error .trap else .ok (.int (m / n))
  | .eq => .ok (.bool (m = n))
  | .ne => .ok (.bool (m ≠ n))
  | .lt => .ok (.bool (m < n))
  | .le => .ok (.bool (m ≤ n))
  | .gt => .ok (.bool (m > n))
  | .ge => .ok (.bool (m ≥ n))
  | .and => .ok (.int (m &&& n))
  | .or => .ok (.int (m ||| n))

/-- `false` comes before `true` -/
def Prim2.onBools (a b : Bool) : Prim2 → Except Stop Value
  | .eq => .ok (.bool (a == b))
  | .ne => .ok (.bool (a != b))
  | .lt => .ok (.bool (!a && b))
  | .le => .ok (.bool (!a || b))
  | .gt => .ok (.bool (a && !b))
  | .ge => .ok (.bool (a || !b))
  | .and => .ok (.bool (a && b))
  | .or => .ok (.bool (a || b))
  | .add | .sub | .mul | .div => .error .error

def Prim2.apply (op : Prim2) : Value → Value → Except Stop Value
  | .int m, .int n => op.onInts m n
  | .bool a, .bool b => op.onBools a b
  | _, _ => .error .error

/-! ### actions -/

namespace Eval

def ofOption {α : Type} : Option α → Eval α
  | some a => pure a
  | none => throw .error

def ofExcept {α : Type} : Except Stop α → Eval α
  | .ok a => pure a
  | .error e => throw e

/-- takes that many words -/
def take (n : Nat) : Eval Unit := modify fun w => { w with words := w.words + n }

def newBox (v : Value) : Eval Value := do
  let w : World ← get
  set { w with store := w.store ++ [v] }
  return .box w.store.length

def readBox (l : Nat) : Eval Value := do
  ofOption (← get).store[l]?

def writeBox (l : Nat) (v : Value) : Eval Value := do
  let w : World ← get
  if l < w.store.length then
    set { w with store := w.store.set l v }
    return .unit
  else throw .error

def unary (f : Value → Eval Value) : List Value → Eval Value
  | [v] => f v
  | _ => throw .error

def binary (f : Value → Value → Eval Value) : List Value → Eval Value
  | [v, w] => f v w
  | _ => throw .error

/-- asks the host -/
def ask (host : Host) (i : Import) (args : List Value) : Eval Value := do
  let w : World ← get
  let answer := host w.trace i.module i.name args
  set (w.answered ⟨i.module, i.name, args, answer⟩)
  return answer

end Eval

/-- What calls do. -/
structure Callables where
  call : Ident → List Value → Eval Value
  callForeign : Ident → List Value → Eval Value

/-- the values of operands -/
def Eval.values (env : Env) (args : List Imm) : Eval (List Value) := ofOption (values? env args)

/-- What a computation does with the values of its operands.  Branches are not performed: they
choose an arm. -/
def Comp.perform (x : Callables) : Comp → List Value → Eval Value
  | .imm _ => Eval.unary pure
  | .prim1 op _ => Eval.unary fun v => Eval.ofOption (op.apply v)
  | .prim2 op _ _ => Eval.binary fun v w => Eval.ofExcept (op.apply v w)
  | .adt typeTag variant _ => fun vs => do
    Eval.take (3 + vs.length)
    return .adt typeTag variant vs
  | .tuple _ => fun vs => do
    Eval.take (1 + vs.length)
    return .tuple vs
  | .tupleGet index _ => Eval.unary fun v => Eval.ofOption (v.element? index.toNat)
  | .boxNew _ => Eval.unary fun v => do
    Eval.take 1
    Eval.newBox v
  | .unbox _ => Eval.unary fun b => do Eval.readBox (← Eval.ofOption b.location?)
  | .boxSet _ _ => Eval.binary fun b v => do Eval.writeBox (← Eval.ofOption b.location?) v
  | .call f _ => x.call f
  | .callForeign f _ => x.callForeign f
  | .branch _ _ _ => fun _ => throw .error
  | .fail _ => fun _ => throw .trap

mutual

def Comp.eval (x : Callables) (env : Env) : Comp → Eval Value
  | .branch cond thenArm elseArm => do
    match ← Eval.ofOption (cond.value? env) with
    | .bool true => thenArm.eval x env
    | .bool false => elseArm.eval x env
    | _ => throw .error
  | c => do c.perform x (← Eval.values env c.operands)

/-- Bindings are evaluated in order, those of a group too: a right-hand side that needs a value of
the group before it is there is an error. -/
def Binding.evals (x : Callables) (env : Env) : List Binding → Eval Env
  | [] => return env
  | ⟨id, comp, _⟩ :: bs => do
    let v ← comp.eval x env
    Binding.evals x (env.set id.stamp v) bs

def Expr.eval (x : Callables) (env : Env) : Expr → Eval Value
  | .letIn _ bindings body => do
    let env ← Binding.evals x env bindings
    body.eval x env
  | .seq comp rest => do
    let _ ← comp.eval x env
    rest.eval x env
  | .comp comp => comp.eval x env

end

theorem Comp.eval_plain {c : Comp} (hc : c.arms = []) (X : Callables) (env : Env) :
    c.eval X env = Eval.values env c.operands >>= c.perform X := by
  cases c with
  | branch a t e => exact absurd hc (List.cons_ne_nil _ _)
  | _ => rfl

theorem Comp.eval_branch {X : Callables} {env : Env} {a : Imm} {b : Bool}
    (h : a.value? env = some (.bool b)) (t e : Expr) :
    (Comp.branch a t e).eval X env = if b then t.eval X env else e.eval X env := by
  unfold Comp.eval
  rw [h]
  cases b <;> rfl

/-- a branch needs a truth value -/
theorem Comp.eval_branch_error {X : Callables} {env : Env} {a : Imm}
    (h : ∀ b, a.value? env ≠ some (.bool b)) (t e : Expr) :
    (Comp.branch a t e).eval X env = throw .error := by
  unfold Comp.eval
  cases hv : a.value? env with
  | none => rfl
  | some v =>
    cases v with
    | bool b => exact absurd hv (h b)
    | _ => rfl

namespace Program

def func? (p : Program) (f : Ident) : Option Func := p.functions.find? fun g => g.id.stamp = f.stamp

def import? (p : Program) (f : Ident) : Option Import :=
  p.imports.find? fun i => i.id.stamp = f.stamp

def callForeign (p : Program) (host : Host) (f : Ident) (args : List Value) : Eval Value :=
  match p.import? f with
  | some i => if i.arity.toNat = args.length then Eval.ask host i args else throw .error
  | none => throw .error

/-- A call of a function of the program when calls may nest `budget` deep. -/
def call (p : Program) (host : Host) : (budget : Nat) → Ident → List Value → Eval Value
  | 0, _, _ => throw .exhausted
  | n + 1, f, args =>
    match p.func? f with
    | some g =>
      if g.params.length = args.length then
        g.body.eval ⟨p.call host n, p.callForeign host⟩ (Env.empty.setAll g.params args)
      else throw .error
    | none => throw .error

def callables (p : Program) (host : Host) (budget : Nat) : Callables :=
  ⟨p.call host budget, p.callForeign host⟩

/-- the entry expression -/
def run (p : Program) (host : Host) (budget : Nat) : Eval Value :=
  p.body.eval (p.callables host budget) Env.empty

end Program

end AnfWasm
