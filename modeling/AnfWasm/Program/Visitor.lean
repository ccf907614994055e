import AnfWasm.Program.Basic

/-!
# Visitors

A `Visitor` has a hook for each kind of node, and a hook is given the action that looks into its
node.  A hook that is left out does no more than look into the node, and a binder without a hook of
its own is taken for an identifier like others.
-/

namespace AnfWasm

structure Visitor (m : Type → Type) [Monad m] where
  ident : Ident → m Unit := fun _ => pure ()
  binder : Ident → m Unit := ident
  imported : Import → m Unit := fun i => binder i.id
  imm : Imm → m Unit → m Unit := fun _ inside => inside
  comp : Comp → m Unit → m Unit := fun _ inside => inside
  binding : Binding → m Unit → m Unit := fun _ inside => inside
  expr : Expr → m Unit → m Unit := fun _ inside => inside
  func : Func → m Unit → m Unit := fun _ inside => inside
  program : Program → m Unit → m Unit := fun _ inside => inside

section
variable {m : Type → Type} [Monad m] (v : Visitor m)

def Imm.visit (a : Imm) : m Unit :=
  v.imm a <| match a with
    | .id x => v.ident x
    | .const _ => pure ()

mutual

def Comp.visit : Comp → m Unit
  | c@(.imm a) | c@(.prim1 _ a) | c@(.tupleGet _ a) | c@(.boxNew a) | c@(.unbox a) =>
    v.comp c (a.visit v)
  | c@(.prim2 _ a b) | c@(.boxSet a b) => v.comp c do
    a.visit v
    b.visit v
  | c@(.adt _ _ args) | c@(.tuple args) => v.comp c (args.forM (Imm.visit v))
  | c@(.call f args) | c@(.callForeign f args) => v.comp c do
    v.ident f
    args.forM (Imm.visit v)
  | c@(.branch cond thenArm elseArm) => v.comp c do
    cond.visit v
    thenArm.visit
    elseArm.visit
  | c@(.fail _) => v.comp c (pure ())

def Binding.visit : Binding → m Unit
  | b@⟨id, comp, _⟩ => v.binding b do
    v.binder id
    comp.visit

def Binding.visits : List Binding → m Unit
  | [] => pure ()
  | b :: bs => do
    b.visit
    Binding.visits bs

def Expr.visit : Expr → m Unit
  | e@(.letIn _ bindings body) => v.expr e do
    Binding.visits bindings
    body.visit
  | e@(.seq comp rest) => v.expr e do
    comp.visit
    rest.visit
  | e@(.comp comp) => v.expr e comp.visit

end

def Func.visit (f : Func) : m Unit := v.func f do
  v.binder f.id
  f.params.forM v.binder
  f.body.visit v

def Program.visit (p : Program) : m Unit := v.program p do
  p.imports.forM v.imported
  p.functions.forM (Func.visit v)
  p.body.visit v

end

end AnfWasm
