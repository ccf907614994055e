import AnfWasm.Program.Basic

/-!
# Equality up to display names

`Program.alike` compares two programs with identifiers taken by stamp.  All else counts: spans, the
source name, the names under which functions are imported.
-/

namespace AnfWasm

def Imm.alike : Imm → Imm → Bool
  | .id x, .id y => x.same y
  | .const c, .const d => c = d
  | _, _ => false

def Imm.alikes (as bs : List Imm) : Bool := as.isEqv bs Imm.alike

def Ident.sames (xs ys : List Ident) : Bool := xs.isEqv ys Ident.same

mutual

def Comp.alike : Comp → Comp → Bool
  | .imm a, .imm b => a.alike b
  | .prim1 o a, .prim1 p b => o = p && a.alike b
  | .prim2 o a c, .prim2 p b d => o = p && a.alike b && c.alike d
  | .adt s v as, .adt t w bs => s = t && v = w && Imm.alikes as bs
  | .tuple as, .tuple bs => Imm.alikes as bs
  | .tupleGet i a, .tupleGet j b => i = j && a.alike b
  | .boxNew a, .boxNew b => a.alike b
  | .unbox a, .unbox b => a.alike b
  | .boxSet a c, .boxSet b d => a.alike b && c.alike d
  | .call f as, .call g bs => f.same g && Imm.alikes as bs
  | .callForeign f as, .callForeign g bs => f.same g && Imm.alikes as bs
  | .branch a s t, .branch b u v => a.alike b && s.alike u && t.alike v
  | .fail m, .fail n => m = n
  | _, _ => false

def Binding.alike : Binding → Binding → Bool
  | ⟨x, c, s⟩, ⟨y, d, t⟩ => x.same y && c.alike d && s = t

def Binding.alikes : List Binding → List Binding → Bool
  | [], [] => true
  | a :: as, b :: bs => a.alike b && Binding.alikes as bs
  | _, _ => false

def Expr.alike : Expr → Expr → Bool
  | .letIn k as d, .letIn l bs e => k = l && Binding.alikes as bs && d.alike e
  | .seq c d, .seq b e => c.alike b && d.alike e
  | .comp c, .comp d => c.alike d
  | _, _ => false

end

def Import.alike (a b : Import) : Bool :=
  a.id.same b.id && a.module = b.module && a.name = b.name && a.arity = b.arity

def Func.alike (f g : Func) : Bool :=
  f.id.same g.id && Ident.sames f.params g.params && f.body.alike g.body
    && f.exported = g.exported && f.span = g.span

namespace Program

def importsAlike (p q : Program) : Bool := p.imports.isEqv q.imports Import.alike

def functionsAlike (p q : Program) : Bool := p.functions.isEqv q.functions Func.alike

def alike (p q : Program) : Bool :=
  p.source = q.source && p.importsAlike q && p.functionsAlike q && p.body.alike q.body

end Program

end AnfWasm
