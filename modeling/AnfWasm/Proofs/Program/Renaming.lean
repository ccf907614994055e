import AnfWasm.Program.Alike
import AnfWasm.Sharing.Basic
import Mathlib.Data.List.Basic
import Mathlib.Tactic.Tauto

/-!
# Other identifiers

`Program.mapIdents φ` replaces every identifier of a program by its image under `φ`; a function
keeps its name, which is the name of its code.  Two cases of it are used:

* `Program.rename r`   the stamps are renamed and the names stay;
* `Program.unnamed`    the stamps stay and the names go, but for those of functions.

Both are by a `Relabeling`, which keeps different stamps different.  Programs whose functions have
the same names are equal up to display names exactly if they are equal without names
(`Program.alike_iff_unnamed`).
-/

namespace AnfWasm

def Ident.rename (r : UInt32 → UInt32) (x : Ident) : Ident := ⟨x.name, r x.stamp⟩

def Ident.unnamed (x : Ident) : Ident := ⟨"", x.stamp⟩

def Imm.mapIdent (φ : Ident → Ident) : Imm → Imm
  | .id x => .id (φ x)
  | .const c => .const c

mutual

def Comp.mapIdents (φ : Ident → Ident) : Comp → Comp
  | .branch cond thenArm elseArm =>
    .branch (cond.mapIdent φ) (thenArm.mapIdents φ) (elseArm.mapIdents φ)
  | .call f args => .call (φ f) (args.map (Imm.mapIdent φ))
  | .callForeign f args => .callForeign (φ f) (args.map (Imm.mapIdent φ))
  | c => c.mapOperands (Imm.mapIdent φ)

def Binding.mapIdents (φ : Ident → Ident) : List Binding → List Binding
  | [] => []
  | ⟨id, comp, span⟩ :: bs => ⟨φ id, comp.mapIdents φ, span⟩ :: Binding.mapIdents φ bs

def Expr.mapIdents (φ : Ident → Ident) : Expr → Expr
  | .letIn kind bindings body => .letIn kind (Binding.mapIdents φ bindings) (body.mapIdents φ)
  | .seq comp rest => .seq (comp.mapIdents φ) (rest.mapIdents φ)
  | .comp comp => .comp (comp.mapIdents φ)

end

def Import.mapIdents (φ : Ident → Ident) (i : Import) : Import := { i with id := φ i.id }

/-- a function keeps its name -/
def Func.mapIdents (φ : Ident → Ident) (f : Func) : Func :=
  { f with
    id := ⟨f.id.name, (φ f.id).stamp⟩
    params := f.params.map φ
    body := f.body.mapIdents φ }

namespace Program

def mapIdents (φ : Ident → Ident) (p : Program) : Program :=
  { p with
    imports := p.imports.map (Import.mapIdents φ)
    functions := p.functions.map (Func.mapIdents φ)
    body := p.body.mapIdents φ }

/-- the program with other stamps -/
def rename (r : UInt32 → UInt32) (p : Program) : Program := p.mapIdents (Ident.rename r)

/-- the program with no names but those of its functions -/
def unnamed (p : Program) : Program := p.mapIdents Ident.unnamed

def functionNames (p : Program) : List String := p.functions.map fun f => f.id.name

end Program

/-- what is found under a key is found under its image -/
theorem lookup_map_of_injective {κ κ' α β : Type} [BEq κ] [LawfulBEq κ] [BEq κ'] [LawfulBEq κ']
    {f : κ → κ'} (hf : Function.Injective f) (g : α → β) (table : List (κ × α)) (k : κ) :
    (table.map (Prod.map f g)).lookup (f k) = (table.lookup k).map g := by
  induction table with
  | nil => rfl
  | cons e table ih =>
    obtain ⟨m, a⟩ := e
    show List.lookup (f k) ((f m, g a) :: table.map (Prod.map f g)) = _
    rw [List.lookup_cons, List.lookup_cons, ih]
    by_cases h : k = m
    · rw [h, beq_self_eq_true, beq_self_eq_true]
      rfl
    · rw [beq_false_of_ne h, beq_false_of_ne fun he => h (hf he)]

theorem contains_map_of_injective {κ κ' : Type} [BEq κ] [LawfulBEq κ] [BEq κ'] [LawfulBEq κ']
    {f : κ → κ'} (hf : Function.Injective f) (ks : List κ) (k : κ) :
    (ks.map f).contains (f k) = ks.contains k := by
  rw [Bool.eq_iff_iff, List.contains_iff_mem, List.contains_iff_mem]
  exact List.mem_map_of_injective hf

/-- A change of identifiers that keeps different stamps different. -/
structure Relabeling where
  ident : Ident → Ident
  stamp : UInt32 → UInt32
  stamp_ident : ∀ x, (ident x).stamp = stamp x.stamp
  injective : Function.Injective stamp

namespace Relabeling

def ofStamps {r : UInt32 → UInt32} (hr : Function.Injective r) : Relabeling :=
  ⟨Ident.rename r, r, fun _ => rfl, hr⟩

def unnamed : Relabeling := ⟨Ident.unnamed, id, fun _ => rfl, Function.injective_id⟩

variable {α : Type} (ρ : Relabeling)

theorem lookup_map (table : List (UInt32 × α)) (n : UInt32) :
    (table.map (Prod.map ρ.stamp id)).lookup (ρ.stamp n) = table.lookup n := by
  rw [lookup_map_of_injective ρ.injective, Option.map_id_fun, id]

theorem contains_map (ns : List UInt32) (n : UInt32) :
    (ns.map ρ.stamp).contains (ρ.stamp n) = ns.contains n :=
  contains_map_of_injective ρ.injective ns n

end Relabeling

theorem Comp.operands_mapIdents (φ : Ident → Ident) (c : Comp) :
    (c.mapIdents φ).operands = c.operands.map (Imm.mapIdent φ) := by
  cases c <;> rfl

def Binding.mapIdent (φ : Ident → Ident) (b : Binding) : Binding :=
  ⟨φ b.id, b.comp.mapIdents φ, b.span⟩

theorem Binding.mapIdents_eq_map (φ : Ident → Ident) (bs : List Binding) :
    Binding.mapIdents φ bs = bs.map (Binding.mapIdent φ) := by
  induction bs with
  | nil => rfl
  | cons b bs ih =>
    obtain ⟨id, comp, span⟩ := b
    exact congrArg (_ :: ·) ih

theorem Binding.map_id_mapIdents (φ : Ident → Ident) (bs : List Binding) :
    (Binding.mapIdents φ bs).map Binding.id = (bs.map Binding.id).map φ := by
  rw [Binding.mapIdents_eq_map, List.map_map, List.map_map]
  rfl

/-! ### equality up to display names -/

theorem Ident.same_iff_unnamed (x y : Ident) : x.same y = true ↔ x.unnamed = y.unnamed := by
  simp [Ident.same, Ident.unnamed]

theorem Imm.alike_iff_unnamed (a b : Imm) :
    a.alike b = true ↔ a.mapIdent Ident.unnamed = b.mapIdent Ident.unnamed := by
  cases a <;> cases b <;> simp [Imm.alike, Imm.mapIdent, Ident.same_iff_unnamed]

/-- lists agree in an equivalence exactly if their images are equal -/
theorem isEqv_iff_map_eq {α β : Type} {eqv : α → α → Bool} {f : α → β}
    (h : ∀ a b, eqv a b = true ↔ f a = f b) {as bs : List α} :
    as.isEqv bs eqv = true ↔ as.map f = bs.map f := by
  induction as generalizing bs with
  | nil => cases bs <;> simp
  | cons a as ih =>
    cases bs with
    | nil => simp
    | cons b bs => simp [List.isEqv, h, ih]

theorem Imm.alikes_iff_unnamed {as bs : List Imm} : Imm.alikes as bs = true ↔
    as.map (Imm.mapIdent Ident.unnamed) = bs.map (Imm.mapIdent Ident.unnamed) :=
  isEqv_iff_map_eq Imm.alike_iff_unnamed

mutual

theorem Comp.alike_iff_unnamed (c d : Comp) :
    c.alike d = true ↔ c.mapIdents Ident.unnamed = d.mapIdents Ident.unnamed := by
  match c with
  | .branch cond thenArm elseArm =>
    cases d with
    | branch cond' thenArm' elseArm' =>
      simp only [Comp.alike, Comp.mapIdents, Bool.and_eq_true, Imm.alike_iff_unnamed,
        thenArm.alike_iff_unnamed thenArm', elseArm.alike_iff_unnamed elseArm', Comp.branch.injEq,
        and_assoc]
    | _ => simp [Comp.alike, Comp.mapIdents, Comp.mapOperands]
  | .imm _ | .prim1 _ _ | .prim2 _ _ _ | .adt _ _ _ | .tuple _ | .tupleGet _ _ | .boxNew _
  | .unbox _ | .boxSet _ _ | .call _ _ | .callForeign _ _ | .fail _ =>
    cases d <;> simp [Comp.alike, Comp.mapIdents, Comp.mapOperands, Imm.alike_iff_unnamed,
      Imm.alikes_iff_unnamed, Ident.same_iff_unnamed, and_assoc]

theorem Binding.alikes_iff_unnamed (as bs : List Binding) : Binding.alikes as bs = true ↔
    Binding.mapIdents Ident.unnamed as = Binding.mapIdents Ident.unnamed bs := by
  match as, bs with
  | [], [] => simp [Binding.alikes]
  | [], ⟨y, d, t⟩ :: bs => simp [Binding.alikes, Binding.mapIdents]
  | ⟨x, c, s⟩ :: as, [] => simp [Binding.alikes, Binding.mapIdents]
  | ⟨x, c, s⟩ :: as, ⟨y, d, t⟩ :: bs =>
    simp [Binding.alikes, Binding.alike, Binding.mapIdents, Ident.same_iff_unnamed,
      c.alike_iff_unnamed d, Binding.alikes_iff_unnamed as bs, and_assoc]

theorem Expr.alike_iff_unnamed (e e' : Expr) :
    e.alike e' = true ↔ e.mapIdents Ident.unnamed = e'.mapIdents Ident.unnamed := by
  match e, e' with
  | .letIn kind bs body, .letIn kind' bs' body' =>
    simp [Expr.alike, Expr.mapIdents, Binding.alikes_iff_unnamed bs bs',
      body.alike_iff_unnamed body', and_assoc]
  | .seq comp rest, .seq comp' rest' =>
    simp [Expr.alike, Expr.mapIdents, comp.alike_iff_unnamed comp', rest.alike_iff_unnamed rest']
  | .comp comp, .comp comp' => simp [Expr.alike, Expr.mapIdents, comp.alike_iff_unnamed comp']
  | .letIn _ _ _, .seq _ _ | .letIn _ _ _, .comp _ | .seq _ _, .letIn _ _ _ | .seq _ _, .comp _
  | .comp _, .letIn _ _ _ | .comp _, .seq _ _ => simp [Expr.alike, Expr.mapIdents]

end

theorem Import.alike_iff_unnamed (i j : Import) :
    i.alike j = true ↔ i.mapIdents Ident.unnamed = j.mapIdents Ident.unnamed := by
  obtain ⟨x, module, name, arity⟩ := i
  obtain ⟨y, module', name', arity'⟩ := j
  simp [Import.alike, Import.mapIdents, Ident.same_iff_unnamed, and_assoc]

theorem Func.alike_iff_unnamed (f g : Func) : f.alike g = true ∧ f.id.name = g.id.name ↔
    f.mapIdents Ident.unnamed = g.mapIdents Ident.unnamed := by
  have hsames : Ident.sames f.params g.params = true ↔
      f.params.map Ident.unnamed = g.params.map Ident.unnamed :=
    isEqv_iff_map_eq Ident.same_iff_unnamed
  simp only [Func.alike, Func.mapIdents, Bool.and_eq_true, hsames,
    f.body.alike_iff_unnamed g.body, Ident.same, Ident.unnamed, decide_eq_true_eq, Func.mk.injEq,
    Ident.mk.injEq]
  tauto

namespace Program

theorem functions_alike_iff {fs gs : List Func} :
    fs.isEqv gs Func.alike = true ∧ fs.map (·.id.name) = gs.map (·.id.name) ↔
      fs.map (Func.mapIdents Ident.unnamed) = gs.map (Func.mapIdents Ident.unnamed) := by
  induction fs generalizing gs with
  | nil => cases gs <;> simp
  | cons f fs ih =>
    cases gs with
    | nil => simp
    | cons g gs =>
      simp only [List.isEqv, List.map_cons, List.cons.injEq, Bool.and_eq_true, ← ih,
        ← Func.alike_iff_unnamed]
      tauto

theorem alike_iff_unnamed (p q : Program) :
    p.alike q = true ∧ p.functionNames = q.functionNames ↔ p.unnamed = q.unnamed := by
  have himports : p.importsAlike q = true ↔ p.imports.map (Import.mapIdents Ident.unnamed) =
      q.imports.map (Import.mapIdents Ident.unnamed) :=
    isEqv_iff_map_eq Import.alike_iff_unnamed
  simp only [alike, unnamed, mapIdents, functionNames, functionsAlike, Bool.and_eq_true, himports,
    p.body.alike_iff_unnamed q.body, ← functions_alike_iff, decide_eq_true_eq, Program.mk.injEq]
  tauto

end Program

end AnfWasm
