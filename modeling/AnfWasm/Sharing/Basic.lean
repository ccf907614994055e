import AnfWasm.Log
import AnfWasm.Sharing.Key

/-!
# Sharing equal constructions

`Program.share` replaces a construction of a sequential let by an earlier one with the same key that
is still in scope: its binding goes, its uses become uses of the earlier identifier, and a let that
has lost all its bindings becomes its body.

* `State.table` has the constructions in scope, by key;
* `State.merges` has the replaced identifiers with what stands for them, the latest first;
* `State.regions` has one region per open let with the keys that it brought into the table.

A binding is entered only after its own right-hand side is resolved, so an identifier never comes
to stand in its own definition.
-/

namespace AnfWasm

namespace Sharing

structure Region where
  kind : LetKind
  keys : List Key

structure State where
  table : List (Key × Ident)
  merges : List (Ident × Ident)
  regions : List Region

def State.start : State := ⟨[], [], []⟩

abbrev Share := StateM State

/-- what stands for the stamp, if its binding was replaced -/
def replacement? (merges : List (Ident × Ident)) (stamp : UInt32) : Option Ident :=
  (merges.find? fun m => m.1.stamp = stamp).map (·.2)

/-- Follows replacements for at most `n` steps. -/
def follow (merges : List (Ident × Ident)) : Nat → Ident → Ident
  | 0, x => x
  | n + 1, x =>
    match replacement? merges x.stamp with
    | some y => follow merges n y
    | none => x

/-- no chain of replacements is longer than their list -/
def State.resolve (s : State) (x : Ident) : Ident := follow s.merges s.merges.length x

def State.resolveImm (s : State) : Imm → Imm
  | .id x => .id (s.resolve x)
  | .const c => .const c

/-- a new region for a let that is entered -/
def State.push (s : State) (kind : LetKind) : State :=
  { s with regions := ⟨kind, []⟩ :: s.regions }

/-- the region of a let that is left, with its keys taken out of the table -/
def State.pop (s : State) : State :=
  match s.regions with
  | [] => s
  | f :: fs => { s with table := s.table.filter fun e => !f.keys.contains e.1, regions := fs }

/-- Takes note of a binding whose right-hand side is resolved. -/
def State.register (s : State) (b : Binding) : State :=
  match s.regions with
  | [] => s
  | f :: fs =>
    if f.kind = .recursive ∨ !b.comp.purity.isPure then s
    else match b.comp.key? with
      | none => s
      | some k =>
        match s.table.lookup k with
        | some x => { s with merges := (b.id, x) :: s.merges }
        | none => { s with
            table := (k, b.id) :: s.table
            regions := { f with keys := k :: f.keys } :: fs }

def State.isMerged (s : State) (b : Binding) : Bool := (replacement? s.merges b.id.stamp).isSome

/-- a let without the bindings that were replaced -/
def prune (s : State) (kind : LetKind) (bindings : List Binding) (body : Expr) : Expr :=
  match bindings.filter fun b => !s.isMerged b with
  | [] => body
  | bs => .letIn kind bs body

end Sharing

/-- the computation with its operands replaced; arms stay as they are -/
def Comp.mapOperands (f : Imm → Imm) : Comp → Comp
  | .imm a => .imm (f a)
  | .prim1 op a => .prim1 op (f a)
  | .prim2 op a b => .prim2 op (f a) (f b)
  | .adt typeTag variant args => .adt typeTag variant (args.map f)
  | .tuple args => .tuple (args.map f)
  | .tupleGet index a => .tupleGet index (f a)
  | .boxNew a => .boxNew (f a)
  | .unbox a => .unbox (f a)
  | .boxSet cell value => .boxSet (f cell) (f value)
  | .call callee args => .call callee (args.map f)
  | .callForeign callee args => .callForeign callee (args.map f)
  | .branch cond thenArm elseArm => .branch (f cond) thenArm elseArm
  | .fail code => .fail code

open Sharing

mutual

def Comp.share : Comp → Share Comp
  | .branch cond thenArm elseArm => do
    let s ← get
    let thenArm ← thenArm.share
    let elseArm ← elseArm.share
    return .branch (s.resolveImm cond) thenArm elseArm
  | c => do
    let s ← get
    return c.mapOperands s.resolveImm

def Binding.shares : List Binding → Share (List Binding)
  | [] => return []
  | ⟨id, comp, span⟩ :: bs => do
    let comp ← comp.share
    modify fun s => s.register ⟨id, comp, span⟩
    let bs ← Binding.shares bs
    return ⟨id, comp, span⟩ :: bs

def Expr.share : Expr → Share Expr
  | .letIn kind bindings body => do
    modify fun s => s.push kind
    let bindings ← Binding.shares bindings
    let body ← body.share
    modify State.pop
    return prune (← get) kind bindings body
  | .seq comp rest => do
    let comp ← comp.share
    let rest ← rest.share
    return .seq comp rest
  | .comp comp => do
    let comp ← comp.share
    return .comp comp

end

def Func.share (f : Func) : Share Func := do
  let body ← f.body.share
  return { f with body }

namespace Sharing

/-- What sharing made of a program. -/
structure Outcome where
  program : Program
  /-- the replaced identifiers and what stands for them, in the order of the replacements -/
  merges : List (Ident × Ident)

def Outcome.merged (o : Outcome) : Nat := o.merges.length

def Outcome.log (o : Outcome) : List LogRecord :=
  o.merges.map (fun (x, y) =>
    ⟨.debug, .sharing, "cse: " ++ x.text ++ " is replaced by " ++ y.text⟩)
    ++ [⟨.debug, .sharing, "cse: merged " ++ o.merged.repr ++ " binding(s)"⟩]

/-- the name under which the pass is known -/
def passName : String := "cse"

def shareProgram (p : Program) : Share Program := do
  let functions ← p.functions.mapM Func.share
  let body ← p.body.share
  return { p with functions, body }

end Sharing

def Program.share (p : Program) : Sharing.Outcome :=
  let (q, s) := (Sharing.shareProgram p).run State.start
  ⟨q, s.merges.reverse⟩

end AnfWasm
