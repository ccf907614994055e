import AnfWasm.Sharing.Basic

/-!
# Sharing as a substitution

Given the list `F` of all replacements, `Expr.rewrite F` does them at once: operands become what
stands for them, replaced bindings go, and a let without bindings becomes its body.
`Expr.Justified F T` says that `F` replaces exactly the bindings whose construction is in the table
of available constructions, where `T` is the table on entry.
-/

namespace AnfWasm

def Atom.stamp? : Atom → Option UInt32
  | .var n => some n
  | .const _ => none

/-- the stamps of the operands of a construction -/
def Key.stamps : Key → List UInt32
  | .adt _ _ args | .tuple args => args.filterMap Atom.stamp?

namespace Sharing

abbrev Merges := List (Ident × Ident)

abbrev Available := List (Key × Ident)

/-- what stands for an identifier -/
def standIn (F : Merges) (x : Ident) : Ident := (replacement? F x.stamp).getD x

def standInImm (F : Merges) : Imm → Imm
  | .id x => .id (standIn F x)
  | .const c => .const c

/-- the binding is not replaced -/
def isKept (F : Merges) (b : Binding) : Bool := (replacement? F b.id.stamp).isNone

/-- a let, or its body when there is nothing to bind -/
def letOf (kind : LetKind) (bs : List Binding) (body : Expr) : Expr :=
  match bs with
  | [] => body
  | bs => .letIn kind bs body

/-- the available construction that a right-hand side repeats -/
def available? (kind : LetKind) (T : Available) (c : Comp) : Option Ident :=
  match kind with
  | .sequential => c.key?.bind fun k => T.lookup k
  | .recursive => none

/-- the constructions available after a binding -/
def extend (kind : LetKind) (T : Available) (x : Ident) (c : Comp) : Available :=
  match kind, c.key? with
  | .sequential, some k => if (T.lookup k).isSome then T else (k, x) :: T
  | _, _ => T

end Sharing

open Sharing

mutual

def Comp.rewrite (F : Merges) : Comp → Comp
  | .branch cond thenArm elseArm =>
    .branch (standInImm F cond) (thenArm.rewrite F) (elseArm.rewrite F)
  | c => c.mapOperands (standInImm F)

/-- the bindings with their right-hand sides rewritten, the replaced ones among them -/
def Binding.rewrites (F : Merges) : List Binding → List Binding
  | [] => []
  | ⟨id, comp, span⟩ :: bs => ⟨id, comp.rewrite F, span⟩ :: Binding.rewrites F bs

def Expr.rewrite (F : Merges) : Expr → Expr
  | .letIn kind bindings body =>
    letOf kind ((Binding.rewrites F bindings).filter (isKept F)) (body.rewrite F)
  | .seq comp rest => .seq (comp.rewrite F) (rest.rewrite F)
  | .comp comp => .comp (comp.rewrite F)

end

/-- the bindings that stay -/
def Binding.keptOf (F : Merges) (bs : List Binding) : List Binding :=
  (Binding.rewrites F bs).filter (isKept F)

def Func.rewrite (F : Merges) (f : Func) : Func := { f with body := f.body.rewrite F }

def Program.rewrite (F : Merges) (p : Program) : Program :=
  { p with functions := p.functions.map (Func.rewrite F), body := p.body.rewrite F }

namespace Sharing

/-- the constructions available after a list of bindings -/
def extendAll (F : Merges) (kind : LetKind) (T : Available) : List Binding → Available
  | [] => T
  | ⟨id, comp, _⟩ :: bs => extendAll F kind (extend kind T id (comp.rewrite F)) bs

end Sharing

mutual

def Comp.Justified (F : Merges) (T : Available) : Comp → Prop
  | .branch _ thenArm elseArm => thenArm.Justified F T ∧ elseArm.Justified F T
  | _ => True

/-- each binding is replaced by what is available for its right-hand side, or kept -/
def Binding.Justified (F : Merges) (kind : LetKind) (T : Available) : List Binding → Prop
  | [] => True
  | ⟨id, comp, _⟩ :: bs =>
    comp.Justified F T ∧ replacement? F id.stamp = available? kind T (comp.rewrite F) ∧
      Binding.Justified F kind (extend kind T id (comp.rewrite F)) bs

def Expr.Justified (F : Merges) (T : Available) : Expr → Prop
  | .letIn kind bindings body =>
    Binding.Justified F kind T bindings ∧ body.Justified F (extendAll F kind T bindings)
  | .seq comp rest => comp.Justified F T ∧ rest.Justified F T
  | .comp comp => comp.Justified F T

end

namespace Sharing
variable {F : Merges}

/-- What is available for a right-hand side is in the table under its key. -/
theorem mem_of_available? {kind : LetKind} {T : Available} {c : Comp} {a : Ident}
    (h : available? kind T c = some a) : ∃ k, c.key? = some k ∧ (k, a) ∈ T := by
  cases kind with
  | recursive => exact absurd h (by simp [available?])
  | sequential =>
    obtain ⟨k, hk, hl⟩ := Option.bind_eq_some_iff.mp h
    obtain ⟨l₁, l₂, rfl, -⟩ := List.lookup_eq_some_iff.mp hl
    exact ⟨k, hk, by simp⟩

/-- A binding enters the table when it is a construction that was not available. -/
theorem extend_cases (kind : LetKind) (T : Available) (x : Ident) (c : Comp) :
    extend kind T x c = T ∨ ∃ k, c.key? = some k ∧ available? kind T c = none ∧
      T.lookup k = none ∧ kind = .sequential ∧ extend kind T x c = (k, x) :: T := by
  cases kind with
  | recursive => exact .inl rfl
  | sequential =>
    cases hk : c.key? with
    | none => exact .inl (by simp [extend, hk])
    | some k =>
      cases hl : T.lookup k with
      | some a => exact .inl (by simp [extend, hk, hl])
      | none => exact .inr ⟨k, rfl, by simp [available?, hk, hl], hl, rfl, by simp [extend, hk, hl]⟩

/-- a binding that is replaced leaves the table as it is -/
theorem extend_of_available {kind : LetKind} {T : Available} {c : Comp} {a x : Ident}
    (h : available? kind T c = some a) : extend kind T x c = T := by
  rcases extend_cases kind T x c with he | ⟨k, -, hn, -⟩
  · exact he
  · exact absurd (hn.symm.trans h) (by simp)

theorem rewrite_plain {c : Comp} (hc : c.arms = []) :
    c.rewrite F = c.mapOperands (standInImm F) := by
  cases c with
  | branch a t e => exact absurd hc (List.cons_ne_nil _ _)
  | _ => simp only [Comp.rewrite]

end Sharing

theorem Comp.arms_mapOperands (f : Imm → Imm) (c : Comp) : (c.mapOperands f).arms = c.arms := by
  cases c <;> rfl

theorem Comp.operands_mapOperands (f : Imm → Imm) (c : Comp) :
    (c.mapOperands f).operands = c.operands.map f := by
  cases c <;> rfl

section
variable {F : Merges} {id : Ident} {comp : Comp} {span : Option Span} {bs : List Binding}

theorem Binding.keptOf_cons_of_none (h : replacement? F id.stamp = none) :
    Binding.keptOf F (⟨id, comp, span⟩ :: bs) = ⟨id, comp.rewrite F, span⟩ :: Binding.keptOf F bs :=
  List.filter_cons_of_pos (by simp [isKept, h])

theorem Binding.keptOf_cons_of_some {a : Ident} (h : replacement? F id.stamp = some a) :
    Binding.keptOf F (⟨id, comp, span⟩ :: bs) = Binding.keptOf F bs :=
  List.filter_cons_of_neg (by simp [isKept, h])

end

end AnfWasm
