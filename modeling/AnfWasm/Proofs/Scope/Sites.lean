import AnfWasm.Program.Scope

/-!
# Places of a program and their scopes

`Expr.At Γ e Δ t` says that the use `t` stands at a place of `e` where the binders `Δ` are in
scope, when `e` itself stands in the scope `Γ`.  One rule per construct says how far a binder
reaches:

* a binding of a sequential let reaches the right-hand sides after it and the body;
* a binding of a recursive group reaches all right-hand sides of the group and the body;
* nothing leaves an arm of a branch, a right-hand side or a function.

`Program.WellFormed` are the scoping rules over all places, and `Violation.Genuine` says what the
report of a violation claims about the program.
-/

namespace AnfWasm

def stamps (xs : List Ident) : List UInt32 := xs.map Ident.stamp

theorem mem_stamps {xs : List Ident} {n : UInt32} : n ∈ stamps xs ↔ ∃ x ∈ xs, x.stamp = n :=
  List.mem_map

theorem stamps_append (xs ys : List Ident) : stamps (xs ++ ys) = stamps xs ++ stamps ys :=
  List.map_append

theorem stamps_cons (x : Ident) (xs : List Ident) : stamps (x :: xs) = x.stamp :: stamps xs := rfl

theorem mem_stamps_reverse_append {xs Γ : List Ident} {n : UInt32} :
    n ∈ stamps (xs.reverse ++ Γ) ↔ n ∈ stamps xs ∨ n ∈ stamps Γ := by
  rw [stamps_append, List.mem_append]
  simp [stamps]

/-- The stamps are pairwise distinct and not among the known ones. -/
def Fresh (known : List UInt32) (xs : List Ident) : Prop :=
  (stamps xs).Nodup ∧ ∀ n ∈ stamps xs, n ∉ known

theorem Fresh.append {known : List UInt32} {xs ys : List Ident} (h : Fresh known (xs ++ ys)) :
    Fresh known xs ∧ Fresh (stamps xs ++ known) ys := by
  obtain ⟨hd, hn⟩ := h
  rw [stamps_append] at hd hn
  obtain ⟨hx, hy, hxy⟩ := List.nodup_append.mp hd
  refine ⟨⟨hx, fun n h => hn n (List.mem_append_left _ h)⟩, hy, fun n h hk => ?_⟩
  rcases List.mem_append.mp hk with hk | hk
  · exact hxy n hk n h rfl
  · exact hn n (List.mem_append_right _ h) hk

theorem Fresh.cons {known : List UInt32} {x : Ident} {xs : List Ident} (h : Fresh known (x :: xs)) :
    x.stamp ∉ known ∧ Fresh (x.stamp :: known) xs := by
  obtain ⟨⟨-, hx⟩, hxs⟩ := (show Fresh known ([x] ++ xs) from h).append
  exact ⟨hx _ (List.mem_singleton_self _), hxs⟩

theorem Fresh.mono {known known' : List UInt32} {xs : List Ident} (h : Fresh known xs)
    (hk : ∀ n ∈ known', n ∈ known) : Fresh known' xs :=
  ⟨h.1, fun n hn hk' => h.2 n hn (hk n hk')⟩

theorem Fresh.perm {known : List UInt32} {xs ys : List Ident} (h : Fresh known xs)
    (hp : xs.Perm ys) : Fresh known ys :=
  ⟨(hp.map Ident.stamp).nodup_iff.mp h.1, fun n hn => h.2 n ((hp.map Ident.stamp).mem_iff.mpr hn)⟩

/-- the identifiers that a list of bindings binds -/
def ids (bs : List Binding) : List Ident := bs.map Binding.id

/-! ### binders -/

mutual

def Comp.binders : Comp → List Ident
  | .branch _ thenArm elseArm => thenArm.binders ++ elseArm.binders
  | _ => []

/-- the binders of a list of bindings, those inside of a right-hand side before its own -/
def Binding.binders : List Binding → List Ident
  | [] => []
  | ⟨id, comp, _⟩ :: bs => comp.binders ++ id :: Binding.binders bs

def Expr.binders : Expr → List Ident
  | .letIn _ bindings body => Binding.binders bindings ++ body.binders
  | .seq comp rest => comp.binders ++ rest.binders
  | .comp comp => comp.binders

end

/-- a computation without arms binds nothing -/
theorem Comp.binders_of_arms {c : Comp} (hc : c.arms = []) : c.binders = [] := by
  cases c with
  | branch => exact absurd hc (List.cons_ne_nil _ _)
  | _ => rfl

/-- the binders inside of the right-hand sides -/
def rhsBinders (bs : List Binding) : List Ident := bs.flatMap fun b => b.comp.binders

theorem binders_perm (bs : List Binding) : (ids bs ++ rhsBinders bs).Perm (Binding.binders bs) := by
  induction bs with
  | nil => exact List.Perm.refl _
  | cons b bs ih =>
    obtain ⟨id, comp, span⟩ := b
    have h : (ids (⟨id, comp, span⟩ :: bs) ++ rhsBinders (⟨id, comp, span⟩ :: bs)).Perm
        (comp.binders ++ id :: (ids bs ++ rhsBinders bs)) := by
      show (id :: (ids bs ++ (comp.binders ++ rhsBinders bs))).Perm _
      refine (List.Perm.cons id ?_).trans List.perm_middle.symm
      rw [← List.append_assoc, ← List.append_assoc]
      exact List.Perm.append_right _ List.perm_append_comm
    exact h.trans ((ih.cons id).append_left _)

theorem ids_subset_binders (bs : List Binding) : ids bs ⊆ Binding.binders bs :=
  fun _ hx => (binders_perm bs).subset (List.mem_append_left _ hx)

def Func.binders (f : Func) : List Ident := f.params ++ f.body.binders

/-- all binders of a program: imports, functions, parameters and let-bound identifiers -/
def Program.binders (p : Program) : List Ident :=
  p.imports.map Import.id ++ p.functions.map Func.id ++ p.functions.flatMap Func.binders
    ++ p.body.binders

/-! ### places -/

/-- A use of an identifier. -/
inductive Site where
  | operand (x : Ident)
  | call (f : Ident) (count : Nat)
  | callForeign (f : Ident) (count : Nat)

mutual

inductive Comp.At : List Ident → Comp → List Ident → Site → Prop where
  | operand {Γ : List Ident} {c : Comp} {x : Ident} :
      Imm.id x ∈ c.operands → Comp.At Γ c Γ (.operand x)
  | call {Γ : List Ident} {f : Ident} {args : List Imm} :
      Comp.At Γ (.call f args) Γ (.call f args.length)
  | callForeign {Γ : List Ident} {f : Ident} {args : List Imm} :
      Comp.At Γ (.callForeign f args) Γ (.callForeign f args.length)
  | thenArm {Γ Δ : List Ident} {t : Site} {cond : Imm} {thenArm elseArm : Expr} :
      Expr.At Γ thenArm Δ t → Comp.At Γ (.branch cond thenArm elseArm) Δ t
  | elseArm {Γ Δ : List Ident} {t : Site} {cond : Imm} {thenArm elseArm : Expr} :
      Expr.At Γ elseArm Δ t → Comp.At Γ (.branch cond thenArm elseArm) Δ t

inductive Expr.At : List Ident → Expr → List Ident → Site → Prop where
  | rhs {Γ Δ : List Ident} {t : Site} {before after : List Binding} {b : Binding} {body : Expr} :
      Comp.At ((ids before).reverse ++ Γ) b.comp Δ t →
      Expr.At Γ (.letIn .sequential (before ++ b :: after) body) Δ t
  | groupRhs {Γ Δ : List Ident} {t : Site} {bs : List Binding} {b : Binding} {body : Expr} :
      b ∈ bs → Comp.At ((ids bs).reverse ++ Γ) b.comp Δ t →
      Expr.At Γ (.letIn .recursive bs body) Δ t
  | body {Γ Δ : List Ident} {t : Site} {kind : LetKind} {bs : List Binding} {body : Expr} :
      Expr.At ((ids bs).reverse ++ Γ) body Δ t → Expr.At Γ (.letIn kind bs body) Δ t
  | seqComp {Γ Δ : List Ident} {t : Site} {c : Comp} {rest : Expr} :
      Comp.At Γ c Δ t → Expr.At Γ (.seq c rest) Δ t
  | seqRest {Γ Δ : List Ident} {t : Site} {c : Comp} {rest : Expr} :
      Expr.At Γ rest Δ t → Expr.At Γ (.seq c rest) Δ t
  | comp {Γ Δ : List Ident} {t : Site} {c : Comp} :
      Comp.At Γ c Δ t → Expr.At Γ (.comp c) Δ t

end

/-- a place of a function, whose parameters are in scope in it -/
def Func.At (f : Func) (Δ : List Ident) (t : Site) : Prop := f.body.At f.params.reverse Δ t

def Program.At (p : Program) (Δ : List Ident) (t : Site) : Prop :=
  (∃ f ∈ p.functions, f.At Δ t) ∨ p.body.At [] Δ t

/-! ### places of a part -/

/-- the scope of the first right-hand side of a let -/
def LetKind.entry (kind : LetKind) (Γ : List Ident) (bs : List Binding) : List Ident :=
  match kind with
  | .sequential => Γ
  | .recursive => (ids bs).reverse ++ Γ

/-- the scope of the next right-hand side after a binding of `x` -/
def LetKind.reach (kind : LetKind) (Γ : List Ident) (x : Ident) : List Ident :=
  match kind with
  | .sequential => x :: Γ
  | .recursive => Γ

/-- the scope after all bindings of a let -/
def LetKind.exit (kind : LetKind) (Γ : List Ident) : List Binding → List Ident
  | [] => Γ
  | b :: bs => kind.exit (kind.reach Γ b.id) bs

theorem LetKind.exit_entry (kind : LetKind) (Γ : List Ident) (bs : List Binding) :
    kind.exit (kind.entry Γ bs) bs = (ids bs).reverse ++ Γ := by
  cases kind with
  | sequential =>
    show LetKind.exit .sequential Γ bs = _
    induction bs generalizing Γ with
    | nil => rfl
    | cons b bs ih =>
      rw [LetKind.exit, LetKind.reach, ih]
      simp [ids]
  | recursive =>
    have h : ∀ (Γ : List Ident) (bs : List Binding), LetKind.exit .recursive Γ bs = Γ := by
      intro Γ bs
      induction bs with
      | nil => rfl
      | cons b bs ih => rw [LetKind.exit, LetKind.reach, ih]
    exact h _ _

/-- places in the right-hand sides of a let, the first of which has the scope `Γ` -/
def Binding.At (kind : LetKind) : List Ident → List Binding → List Ident → Site → Prop
  | _, [], _, _ => False
  | Γ, b :: bs, Δ, t => b.comp.At Γ Δ t ∨ Binding.At kind (kind.reach Γ b.id) bs Δ t

/-- places that are operands out of a list -/
def AtOperands (Γ : List Ident) (args : List Imm) (Δ : List Ident) (t : Site) : Prop :=
  ∃ x, Imm.id x ∈ args ∧ Δ = Γ ∧ t = .operand x

section
variable {Γ Δ : List Ident} {t : Site}

theorem Binding.at_sequential {bs : List Binding} : Binding.At .sequential Γ bs Δ t ↔
    ∃ before b after, bs = before ++ b :: after ∧ b.comp.At ((ids before).reverse ++ Γ) Δ t := by
  induction bs generalizing Γ with
  | nil => simp [Binding.At]
  | cons b bs ih =>
    rw [Binding.At, ih]
    constructor
    · rintro (hat | ⟨before, b', after, rfl, hat⟩)
      · exact ⟨[], b, bs, rfl, hat⟩
      · refine ⟨b :: before, b', after, rfl, ?_⟩
        simpa [ids, LetKind.reach] using hat
    · rintro ⟨before, b', after, h, hat⟩
      cases before with
      | nil =>
        obtain ⟨rfl, rfl⟩ := List.cons.inj h
        exact .inl hat
      | cons b'' before =>
        obtain ⟨rfl, rfl⟩ := List.cons.inj h
        refine .inr ⟨before, b', after, rfl, ?_⟩
        simpa [ids, LetKind.reach] using hat

theorem Binding.at_recursive {bs : List Binding} :
    Binding.At .recursive Γ bs Δ t ↔ ∃ b ∈ bs, b.comp.At Γ Δ t := by
  induction bs with
  | nil => simp [Binding.At]
  | cons b bs ih => simp [Binding.At, LetKind.reach, ih]

theorem atOperands_nil : ¬AtOperands Γ [] Δ t := by
  rintro ⟨x, hx, _⟩
  exact absurd hx List.not_mem_nil

theorem atOperands_cons {a : Imm} {args : List Imm} :
    AtOperands Γ (a :: args) Δ t ↔ AtOperands Γ [a] Δ t ∨ AtOperands Γ args Δ t := by
  simp only [AtOperands, List.mem_cons, List.not_mem_nil, or_false, or_and_right, exists_or]

theorem Expr.at_let {kind : LetKind} {bs : List Binding} {body : Expr} :
    (Expr.letIn kind bs body).At Γ Δ t ↔
      Binding.At kind (kind.entry Γ bs) bs Δ t ∨ body.At ((ids bs).reverse ++ Γ) Δ t := by
  constructor
  · intro h
    cases h with
    | rhs h => exact .inl (Binding.at_sequential.mpr ⟨_, _, _, rfl, h⟩)
    | groupRhs hb h => exact .inl (Binding.at_recursive.mpr ⟨_, hb, h⟩)
    | body h => exact .inr h
  · rintro (h | h)
    · cases kind with
      | sequential =>
        obtain ⟨before, b, after, rfl, h⟩ := Binding.at_sequential.mp h
        exact .rhs h
      | recursive =>
        obtain ⟨b, hb, h⟩ := Binding.at_recursive.mp h
        exact .groupRhs hb h
    · exact .body h

theorem Expr.at_seq {c : Comp} {rest : Expr} :
    (Expr.seq c rest).At Γ Δ t ↔ c.At Γ Δ t ∨ rest.At Γ Δ t := by
  constructor
  · intro h
    cases h with
    | seqComp h => exact .inl h
    | seqRest h => exact .inr h
  · rintro (h | h)
    · exact .seqComp h
    · exact .seqRest h

theorem Expr.at_comp {c : Comp} : (Expr.comp c).At Γ Δ t ↔ c.At Γ Δ t := by
  constructor
  · intro h
    cases h with
    | comp h => exact h
  · exact .comp

theorem Comp.at_branch {cond : Imm} {thenArm elseArm : Expr} :
    (Comp.branch cond thenArm elseArm).At Γ Δ t ↔
      AtOperands Γ [cond] Δ t ∨ thenArm.At Γ Δ t ∨ elseArm.At Γ Δ t := by
  constructor
  · intro h
    cases h with
    | operand h => exact .inl ⟨_, h, rfl, rfl⟩
    | thenArm h => exact .inr (.inl h)
    | elseArm h => exact .inr (.inr h)
  · rintro (⟨x, hx, rfl, rfl⟩ | h | h)
    · exact .operand hx
    · exact .thenArm h
    · exact .elseArm h

theorem Comp.at_call {f : Ident} {args : List Imm} :
    (Comp.call f args).At Γ Δ t ↔
      (Δ = Γ ∧ t = .call f args.length) ∨ AtOperands Γ args Δ t := by
  constructor
  · intro h
    cases h with
    | operand h => exact .inr ⟨_, h, rfl, rfl⟩
    | call => exact .inl ⟨rfl, rfl⟩
  · rintro (⟨rfl, rfl⟩ | ⟨x, hx, rfl, rfl⟩)
    · exact .call
    · exact .operand hx

theorem Comp.at_callForeign {f : Ident} {args : List Imm} :
    (Comp.callForeign f args).At Γ Δ t ↔
      (Δ = Γ ∧ t = .callForeign f args.length) ∨ AtOperands Γ args Δ t := by
  constructor
  · intro h
    cases h with
    | operand h => exact .inr ⟨_, h, rfl, rfl⟩
    | callForeign => exact .inl ⟨rfl, rfl⟩
  · rintro (⟨rfl, rfl⟩ | ⟨x, hx, rfl, rfl⟩)
    · exact .callForeign
    · exact .operand hx

end

/-- neither a call nor a branch -/
def Comp.IsPlain : Comp → Prop
  | .call _ _ | .callForeign _ _ | .branch _ _ _ => False
  | _ => True

theorem Comp.IsPlain.arms {c : Comp} (hc : c.IsPlain) : c.arms = [] := by
  cases c with
  | branch => exact hc.elim
  | _ => rfl

theorem Comp.IsPlain.at_iff {c : Comp} (hc : c.IsPlain) {Γ Δ : List Ident} {t : Site} :
    c.At Γ Δ t ↔ AtOperands Γ c.operands Δ t := by
  constructor
  · intro h
    cases h with
    | operand h => exact ⟨_, h, rfl, rfl⟩
    | call | callForeign | thenArm | elseArm => exact hc.elim
  · rintro ⟨x, hx, rfl, rfl⟩
    exact .operand hx

/-! ### the rules -/

/-- the stamp is bound by one of the binders in scope -/
def InScope (Δ : List Ident) (x : Ident) : Prop := ∃ y ∈ Δ, y.stamp = x.stamp

theorem inScope_iff {Δ : List Ident} {x : Ident} : InScope Δ x ↔ x.stamp ∈ stamps Δ :=
  mem_stamps.symm

namespace Program

/-- `f` is a function of the program with that many parameters -/
def Declares (p : Program) (f : Ident) (count : Nat) : Prop :=
  ∃ g ∈ p.functions, g.id.stamp = f.stamp ∧ g.params.length = count

/-- `f` is an import of the program with that arity -/
def DeclaresForeign (p : Program) (f : Ident) (count : Nat) : Prop :=
  ∃ i ∈ p.imports, i.id.stamp = f.stamp ∧ i.arity.toNat = count

/-- **Well-formed programs.** -/
structure WellFormed (p : Program) : Prop where
  /-- no stamp is bound twice in the whole program -/
  bound_once : (stamps p.binders).Nodup
  operand : ∀ {Δ x}, p.At Δ (.operand x) → InScope Δ x
  call : ∀ {Δ f n}, p.At Δ (.call f n) → p.Declares f n
  callForeign : ∀ {Δ f n}, p.At Δ (.callForeign f n) → p.DeclaresForeign f n

end Program

/-- What the report of a violation says about the program. -/
def Violation.Genuine (p : Program) : Violation → Prop
  | .unbound x => ∃ Δ, p.At Δ (.operand x) ∧ ¬InScope Δ x
  | .rebound x => x ∈ p.binders ∧ 2 ≤ (stamps p.binders).count x.stamp
  | .notAFunction f => (∃ Δ n, p.At Δ (.call f n)) ∧ ∀ g ∈ p.functions, g.id.stamp ≠ f.stamp
  | .notAnImport f => (∃ Δ n, p.At Δ (.callForeign f n)) ∧ ∀ i ∈ p.imports, i.id.stamp ≠ f.stamp
  | .arityMismatch f expected found => expected ≠ found ∧
      ((∃ Δ, p.At Δ (.call f found)) ∧ p.Declares f expected ∨
        (∃ Δ, p.At Δ (.callForeign f found)) ∧ p.DeclaresForeign f expected)

end AnfWasm
