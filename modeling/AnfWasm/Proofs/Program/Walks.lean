import AnfWasm.Program.Walk
import Mathlib.Data.List.Basic

/-!
# What is read off a walk

`Node.children` is what a node is made of, in the order of declaration, and the walk over a node
goes through them (`Node.walk_eq`).  So what is read off the walk is read off the ends of the node
and off its children (`Node.filterMap_walk`).

Most readings take something of computations and of uses only (`Selective`).  For these there is one
equation for each kind of node.
-/

namespace AnfWasm

/-! ### children -/

/-- What a node can be made of. -/
inductive Child where
  | imported (i : Import)
  | binder (x : Ident)
  | use (x : Ident)
  | node (n : Node)

def Comp.children : Comp → List Child
  | .imm a | .prim1 _ a | .tupleGet _ a | .boxNew a | .unbox a => [.node (.imm a)]
  | .prim2 _ a b | .boxSet a b => [.node (.imm a), .node (.imm b)]
  | .adt _ _ args | .tuple args => args.map (.node <| .imm ·)
  | .call f args | .callForeign f args => .use f :: args.map (.node <| .imm ·)
  | .branch cond thenArm elseArm =>
    [.node (.imm cond), .node (.expr thenArm), .node (.expr elseArm)]
  | .fail _ => []

/-- the children of a node in the order of declaration, lists item by item -/
def Node.children : Node → List Child
  | .program p =>
    p.imports.map .imported ++ p.functions.map (.node <| .func ·) ++ [.node (.expr p.body)]
  | .func f => .binder f.id :: f.params.map .binder ++ [.node (.expr f.body)]
  | .expr (.letIn _ bindings body) => bindings.map (.node <| .binding ·) ++ [.node (.expr body)]
  | .expr (.seq c rest) => [.node (.comp c), .node (.expr rest)]
  | .expr (.comp c) => [.node (.comp c)]
  | .binding b => [.binder b.id, .node (.comp b.comp)]
  | .comp c => c.children
  | .imm (.id x) => [.use x]
  | .imm (.const _) => []

/-! ### walks go through the children -/

def Node.walk (descend : Node → Bool) : Node → List Step
  | .program p => p.walk descend
  | .func f => f.walk descend
  | .expr e => e.walk descend
  | .binding b => b.walk descend
  | .comp c => c.walk descend
  | .imm a => a.walk descend

def Child.walk (descend : Node → Bool) : Child → List Step
  | .imported i => [.binder i.id]
  | .binder x => [.binder x]
  | .use x => [.use x]
  | .node n => n.walk descend

theorem Binding.walks_eq (descend : Node → Bool) (bs : List Binding) :
    Binding.walks descend bs = bs.flatMap (Binding.walk descend) := by
  induction bs with
  | nil => rfl
  | cons b bs ih => rw [Binding.walks, ih, List.flatMap_cons]

theorem flatMap_walk_binders (descend : Node → Bool) {α : Type} (child : α → Child) (id : α → Ident)
    (h : ∀ a, (child a).walk descend = [.binder (id a)]) (as : List α) :
    (as.map child).flatMap (Child.walk descend) = as.map fun a => .binder (id a) := by
  rw [List.flatMap_map, List.map_eq_flatMap]
  exact congrArg (as.flatMap ·) (funext h)

theorem Node.walk_eq (descend : Node → Bool) (n : Node) :
    n.walk descend = n.around descend (n.children.flatMap (Child.walk descend)) := by
  cases n with
  | program p =>
    have himports := flatMap_walk_binders descend .imported Import.id (fun _ => rfl) p.imports
    simp [Node.walk, Program.walk, Node.children, himports, List.flatMap_map, Child.walk]
  | func f =>
    have hparams := flatMap_walk_binders descend .binder (fun x => x) (fun _ => rfl) f.params
    simp [Node.walk, Func.walk, Node.children, hparams, Child.walk]
  | expr e =>
    cases e <;>
      simp [Node.walk, Expr.walk, Node.children, Binding.walks_eq, List.flatMap_map, Child.walk]
  | binding b =>
    cases b
    simp [Node.walk, Binding.walk, Node.children, Child.walk]
  | comp c =>
    cases c <;> simp [Node.walk, Comp.walk, Node.children, Comp.children, Comp.operands,
      List.flatMap_map, Child.walk]
  | imm a => cases a <;> simp [Node.walk, Imm.walk, Node.children, Imm.id?, Child.walk]

/-- what is read off the walk over a node is read off its ends and its children -/
theorem Node.filterMap_walk {α : Type} (f : Step → Option α) (n : Node) :
    (n.walk everything).filterMap f = (f (.opened n)).toList ++
      n.children.flatMap (fun child => (child.walk everything).filterMap f) ++
        (f (.closed n)).toList := by
  simp only [List.filterMap_eq_flatMap_toList]
  rw [Node.walk_eq, Node.around]
  simp [everything, List.flatMap_assoc]

/-! ### readings of computations and uses -/

def Comp.callee? : Comp → Option Ident
  | .call f _ | .callForeign f _ => some f
  | _ => none

/-- the identifiers that a computation itself names: its callee and its operands -/
def Comp.named (c : Comp) : List Ident := c.callee?.toList ++ c.operands.filterMap Imm.id?

theorem Comp.children_eq (c : Comp) : c.children = c.callee?.toList.map .use ++
    c.operands.map (.node <| .imm ·) ++ c.arms.map (.node <| .expr ·) := by
  cases c <;> simp [Comp.children, Comp.callee?, Comp.operands, Comp.arms]

theorem Comp.flatMap_arms {α : Type} (g : Expr → List α) (cond : Imm) (thenArm elseArm : Expr) :
    (Comp.branch cond thenArm elseArm).arms.flatMap g = g thenArm ++ g elseArm := by
  rw [Comp.arms, List.flatMap_cons, List.flatMap_singleton]

section
variable {α : Type} (f : Step → Option α)

def Child.read (child : Child) : List α := (child.walk everything).filterMap f

def Comp.read (c : Comp) : List α := (c.walk everything).filterMap f

def Binding.reads (bs : List Binding) : List α := (Binding.walks everything bs).filterMap f

def Expr.read (e : Expr) : List α := (e.walk everything).filterMap f

/-- Nothing is taken of binders and of nodes that are not computations. -/
structure Selective : Prop where
  opened : ∀ n, (∀ c, n ≠ .comp c) → f (.opened n) = none
  closed : ∀ n, f (.closed n) = none
  binder : ∀ x, f (.binder x) = none

end

namespace Selective
variable {α : Type} {f : Step → Option α} (hf : Selective f)
include hf

theorem read_node {n : Node} (h : ∀ c, n ≠ .comp c) :
    (n.walk everything).filterMap f = n.children.flatMap (Child.read f) := by
  rw [Node.filterMap_walk, hf.opened n h, hf.closed]
  exact List.append_nil _

theorem read_binder (x : Ident) : (Child.binder x).read f = [] :=
  List.filterMap_cons_none (hf.binder x)

omit hf in
theorem read_uses (xs : List Ident) :
    (xs.map Child.use).flatMap (Child.read f) = xs.filterMap fun x => f (.use x) := by
  rw [List.filterMap_eq_flatMap_toList, List.flatMap_map]
  refine List.flatMap_congr fun x _ => ?_
  show [Step.use x].filterMap f = _
  rw [List.filterMap_eq_flatMap_toList, List.flatMap_singleton]

theorem read_operands (args : List Imm) :
    (args.map (Child.node <| .imm ·)).flatMap (Child.read f) =
      (args.filterMap Imm.id?).filterMap fun x => f (.use x) := by
  rw [List.filterMap_filterMap, List.filterMap_eq_flatMap_toList, List.flatMap_map]
  refine List.flatMap_congr fun a _ => ?_
  show ((Node.imm a).walk everything).filterMap f = _
  rw [hf.read_node fun _ => Node.noConfusion]
  cases a with
  | const c => rfl
  | id x =>
    show ([x].map Child.use).flatMap (Child.read f) = (f (.use x)).toList
    rw [read_uses, List.filterMap_eq_flatMap_toList, List.flatMap_singleton]

/-- a computation itself, what it names, and its arms -/
theorem read_comp (c : Comp) : c.read f = (f (.opened (.comp c))).toList ++
    (c.named.filterMap (fun x => f (.use x)) ++ c.arms.flatMap (Expr.read f)) := by
  have hchildren : c.children.flatMap (Child.read f) =
      c.named.filterMap (fun x => f (.use x)) ++ c.arms.flatMap (Expr.read f) := by
    rw [Comp.children_eq, Comp.named, List.flatMap_append, List.flatMap_append, read_uses,
      hf.read_operands, List.filterMap_append, List.flatMap_map]
    rfl
  show ((Node.comp c).walk everything).filterMap f = _
  rw [Node.filterMap_walk, hf.closed, ← hchildren]
  exact List.append_nil _

theorem reads_cons (id : Ident) (c : Comp) (span : Option Span) (bs : List Binding) :
    Binding.reads f (⟨id, c, span⟩ :: bs) = c.read f ++ Binding.reads f bs := by
  have hbinding : ((Node.binding ⟨id, c, span⟩).walk everything).filterMap f = c.read f := by
    rw [hf.read_node fun _ => Node.noConfusion]
    show (Child.binder id).read f ++ (c.read f ++ []) = _
    rw [hf.read_binder, List.append_nil]
    rfl
  rw [Binding.reads, Binding.walks, List.filterMap_append]
  exact congrArg (· ++ _) hbinding

omit hf in
theorem reads_eq (bs : List Binding) :
    Binding.reads f bs = (bs.map fun b => Child.node (.binding b)).flatMap (Child.read f) := by
  rw [Binding.reads, Binding.walks_eq, List.filterMap_flatMap, List.flatMap_map]
  rfl

theorem read_letIn (kind : LetKind) (bs : List Binding) (body : Expr) :
    (Expr.letIn kind bs body).read f = Binding.reads f bs ++ body.read f := by
  show ((Node.expr (.letIn kind bs body)).walk everything).filterMap f = _
  rw [hf.read_node fun _ => Node.noConfusion, Node.children, List.flatMap_append, reads_eq,
    List.flatMap_singleton]
  rfl

theorem read_seq (c : Comp) (rest : Expr) : (Expr.seq c rest).read f = c.read f ++ rest.read f := by
  show ((Node.expr (.seq c rest)).walk everything).filterMap f = _
  rw [hf.read_node fun _ => Node.noConfusion, Node.children, List.flatMap_cons,
    List.flatMap_singleton]
  rfl

theorem read_tail (c : Comp) : (Expr.comp c).read f = c.read f := by
  show ((Node.expr (.comp c)).walk everything).filterMap f = _
  rw [hf.read_node fun _ => Node.noConfusion, Node.children, List.flatMap_singleton]
  rfl

end Selective

end AnfWasm
