import AnfWasm.Program.Printer

/-!
# Walking over a program

`Program.walk` is the depth-first traversal of a program as a list of `Step`s: a node is opened,
then come its parts in the order of its fields, then it is closed.  Identifiers come up as binders
or as uses; callees and operands are uses.  `descend` decides which nodes are looked into.

Analyses read what they need off the walk: `identifiers`, `comps`, `mentions`.
-/

namespace AnfWasm

inductive NodeKind where
  | program
  | func
  | expr
  | binding
  | comp
  | imm
deriving DecidableEq

namespace NodeKind

def name : NodeKind → String
  | .program => "program"
  | .func => "function"
  | .expr => "expr"
  | .binding => "binding"
  | .comp => "comp"
  | .imm => "imm"

def all : List NodeKind := [.program, .func, .expr, .binding, .comp, .imm]

end NodeKind

inductive Node where
  | program (p : Program)
  | func (f : Func)
  | expr (e : Expr)
  | binding (b : Binding)
  | comp (c : Comp)
  | imm (a : Imm)

inductive Step where
  | opened (node : Node)
  | closed (node : Node)
  | binder (x : Ident)
  | use (x : Ident)

namespace Node

def kind : Node → NodeKind
  | .program _ => .program
  | .func _ => .func
  | .expr _ => .expr
  | .binding _ => .binding
  | .comp _ => .comp
  | .imm _ => .imm

/-- One line that tells nodes of a kind apart. -/
def label : Node → String
  | .program _ => ""
  | .func f => f.id.text ++ "(" ++ ",".intercalate (f.params.map Ident.text) ++ ")"
  | .expr (.letIn kind bindings _) =>
    kind.keyword ++ " [" ++ ",".intercalate (bindings.map fun b => b.id.text) ++ "]"
  | .expr (.seq _ _) => "seq"
  | .expr (.comp _) => "comp"
  | .binding b => b.id.text
  | .comp (.branch cond _ _) => "if " ++ cond.text
  | .comp c => c.text
  | .imm a => a.text

/-- the node around the steps of its parts, if they are looked into -/
def around (descend : Node → Bool) (node : Node) (parts : List Step) : List Step :=
  .opened node :: if descend node then parts ++ [.closed node] else []

end Node

def Imm.walk (descend : Node → Bool) (a : Imm) : List Step :=
  Node.around descend (.imm a) (a.id?.toList.map .use)

mutual

def Comp.walk (descend : Node → Bool) : Comp → List Step
  | .branch cond thenArm elseArm =>
    Node.around descend (.comp (.branch cond thenArm elseArm))
      (cond.walk descend ++ thenArm.walk descend ++ elseArm.walk descend)
  | .call f args =>
    Node.around descend (.comp (.call f args)) (.use f :: args.flatMap (Imm.walk descend))
  | .callForeign f args =>
    Node.around descend (.comp (.callForeign f args)) (.use f :: args.flatMap (Imm.walk descend))
  | c => Node.around descend (.comp c) (c.operands.flatMap (Imm.walk descend))

def Binding.walk (descend : Node → Bool) : Binding → List Step
  | ⟨id, comp, span⟩ =>
    Node.around descend (.binding ⟨id, comp, span⟩) (.binder id :: comp.walk descend)

def Binding.walks (descend : Node → Bool) : List Binding → List Step
  | [] => []
  | b :: bs => b.walk descend ++ Binding.walks descend bs

def Expr.walk (descend : Node → Bool) : Expr → List Step
  | .letIn kind bindings body =>
    Node.around descend (.expr (.letIn kind bindings body))
      (Binding.walks descend bindings ++ body.walk descend)
  | .seq comp rest =>
    Node.around descend (.expr (.seq comp rest)) (comp.walk descend ++ rest.walk descend)
  | .comp comp => Node.around descend (.expr (.comp comp)) (comp.walk descend)

end

def Func.walk (descend : Node → Bool) (f : Func) : List Step :=
  Node.around descend (.func f) (.binder f.id :: f.params.map .binder ++ f.body.walk descend)

def Program.walk (descend : Node → Bool) (p : Program) : List Step :=
  Node.around descend (.program p)
    (p.imports.map (fun i => .binder i.id) ++ p.functions.flatMap (Func.walk descend)
      ++ p.body.walk descend)

/-- look into everything -/
def everything (_ : Node) : Bool := true

namespace Step

def ident? : Step → Option Ident
  | .binder x | .use x => some x
  | _ => none

def use? : Step → Option Ident
  | .use x => some x
  | _ => none

def opened? : Step → Option Node
  | .opened node => some node
  | _ => none

def comp? : Step → Option Comp
  | .opened (.comp c) => some c
  | _ => none

end Step

/-- all identifiers in the order of the walk -/
def Program.identifiers (p : Program) : List Ident := (p.walk everything).filterMap Step.ident?

/-- all computations in the order of the walk -/
def Program.comps (p : Program) : List Comp := (p.walk everything).filterMap Step.comp?

/-- the identifiers that a computation uses, its arms included -/
def Comp.mentions (c : Comp) : List Ident := (c.walk everything).filterMap Step.use?

end AnfWasm
