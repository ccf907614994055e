import AnfWasm.Program.Alike
import AnfWasm.Program.Mapper
import AnfWasm.Program.Walk

/-!
# Rules

A `Rule` says at which hook which nodes are replaced and by what.  `Rules.mapper` is the mapper
that lets the first fitting rule fire at each hook and notes every call of a hook.  A rule fires at
most `Rules.limit` times, a rule for the whole program without limit, since its hooks are called
once.
-/

namespace AnfWasm

inductive Moment where
  | enter
  | leave
deriving DecidableEq

/-- What a rule looks for and what it puts there.  Functions and bindings are found by stamp,
expressions, computations and operands by being alike. -/
inductive Rule where
  | program (new : Program)
  | func (stamp : UInt32) (new : Func)
  | expr (pattern new : Expr)
  | binding (stamp : UInt32) (new : Binding)
  | comp (pattern new : Comp)
  | imm (pattern new : Imm)

namespace Rules

/-- how often one rule may fire -/
def limit : Nat := 4

/-- A rule at its hook, with the number of times that it can still fire. -/
structure Armed where
  moment : Moment
  rule : Rule
  left : Nat

/-- What is noted: the moment and the node as the hook got it. -/
abbrev Event := Moment × Node

structure State where
  rules : List Armed
  events : List Event

/-- how much deeper a rule can make a path through the program -/
def Armed.growth (r : Armed) : Nat :=
  r.left * match r.rule with
    | .func _ new => new.height
    | .expr _ new => new.height
    | .binding _ new => new.height
    | .comp _ new => new.height
    | .program _ | .imm _ _ => 0

/-- The replacement by the first rule that fits and can fire, and the rules after that. -/
def fire? {α : Type} (fits : Rule → Option α) (limited : Bool) (moment : Moment) :
    List Armed → Option (α × List Armed)
  | [] => none
  | r :: rs =>
    match if r.moment = moment ∧ (limited → r.left ≠ 0) then fits r.rule else none with
    | some a => some (a, { r with left := r.left - 1 } :: rs)
    | none => (fun (a, rs) => (a, r :: rs)) <$> fire? fits limited moment rs

def hook {α : Type} (node : α → Node) (fits : α → Rule → Option α) (limited : Bool)
    (moment : Moment) (a : α) : StateM State α := do
  modify fun s => { s with events := s.events ++ [(moment, node a)] }
  match fire? (fits a) limited moment (← get).rules with
  | some (b, rules) =>
    modify fun s => { s with rules }
    return b
  | none => return a

def onProgram : Moment → Program → StateM State Program :=
  hook .program (fun _ r => match r with
    | .program new => some new
    | _ => none) false

def onFunc : Moment → Func → StateM State Func :=
  hook .func (fun f r => match r with
    | .func stamp new => if f.id.stamp = stamp then some new else none
    | _ => none) true

def onExpr : Moment → Expr → StateM State Expr :=
  hook .expr (fun e r => match r with
    | .expr pattern new => if e.alike pattern then some new else none
    | _ => none) true

def onBinding : Moment → Binding → StateM State Binding :=
  hook .binding (fun b r => match r with
    | .binding stamp new => if b.id.stamp = stamp then some new else none
    | _ => none) true

def onComp : Moment → Comp → StateM State Comp :=
  hook .comp (fun c r => match r with
    | .comp pattern new => if c.alike pattern then some new else none
    | _ => none) true

def onImm : Moment → Imm → StateM State Imm :=
  hook .imm (fun a r => match r with
    | .imm pattern new => if a.alike pattern then some new else none
    | _ => none) true

def mapper : Mapper (StateM State) where
  enterProgram := onProgram .enter
  leaveProgram := onProgram .leave
  enterFunc := onFunc .enter
  leaveFunc := onFunc .leave
  enterExpr := onExpr .enter
  leaveExpr := onExpr .leave
  enterBinding := onBinding .enter
  leaveBinding := onBinding .leave
  enterComp := onComp .enter
  leaveComp := onComp .leave
  enterImm := onImm .enter
  leaveImm := onImm .leave

/-- The program after the rules, and the calls of the hooks. -/
def run (rules : List (Moment × Rule)) (p : Program) : Program × List Event :=
  let armed := rules.map fun (moment, rule) => Armed.mk moment rule limit
  let (p, s) := (p.mapM mapper ((armed.map Armed.growth).foldr (· + ·) 0)).run ⟨armed, []⟩
  (p, s.events)

end Rules

/-- the program after a walk whose hooks do nothing -/
def Program.rebuilt (p : Program) : Program := Id.run (p.mapM (Mapper.identity Id) 0)

end AnfWasm
