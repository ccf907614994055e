import AnfWasm.Proofs.Program.Walks
import AnfWasm.Proofs.Scope.Sites

/-!
# Mentions

A computation mentions an identifier if it is used at one of its places, as an operand or as a
callee.  `Comp.mentions`, which is read off the walk over a computation, are these identifiers
(`Comp.mem_mentions`).

`Expr.HasGroup e bs` says that `bs` is a recursive group somewhere in `e`, and `Expr.Cyclic e x y`
that in such a group the right-hand side of `x` mentions `y`, which is of the group, too.
-/

namespace AnfWasm

def Site.ident : Site → Ident
  | .operand x => x
  | .call f _ => f
  | .callForeign f _ => f

/-- the identifier is used somewhere in the computation, its arms included -/
def Comp.Mentions (c : Comp) (x : Ident) : Prop := ∃ Γ Δ t, c.At Γ Δ t ∧ t.ident = x

/-! ### places in another scope -/

mutual

/-- A part has the same places in every scope, and what is in scope at a place are the binders on
the way to it and the scope of the part. -/
theorem Comp.At.rebase {Γ Δ : List Ident} {c : Comp} {t : Site} (h : c.At Γ Δ t) :
    ∃ inner, Δ = inner ++ Γ ∧ ∀ Γ', c.At Γ' (inner ++ Γ') t := by
  match h with
  | .operand hx => exact ⟨[], rfl, fun _ => .operand hx⟩
  | .call => exact ⟨[], rfl, fun _ => .call⟩
  | .callForeign => exact ⟨[], rfl, fun _ => .callForeign⟩
  | .thenArm h1 =>
    obtain ⟨inner, rfl, hat⟩ := h1.rebase
    exact ⟨inner, rfl, fun Γ' => .thenArm (hat Γ')⟩
  | .elseArm h1 =>
    obtain ⟨inner, rfl, hat⟩ := h1.rebase
    exact ⟨inner, rfl, fun Γ' => .elseArm (hat Γ')⟩

theorem Expr.At.rebase {Γ Δ : List Ident} {e : Expr} {t : Site} (h : e.At Γ Δ t) :
    ∃ inner, Δ = inner ++ Γ ∧ ∀ Γ', e.At Γ' (inner ++ Γ') t := by
  match h with
  | .rhs h1 =>
    obtain ⟨inner, rfl, hat⟩ := h1.rebase
    refine ⟨_, (List.append_assoc _ _ _).symm, fun Γ' => ?_⟩
    rw [List.append_assoc]
    exact .rhs (hat _)
  | .groupRhs hb h1 =>
    obtain ⟨inner, rfl, hat⟩ := h1.rebase
    refine ⟨_, (List.append_assoc _ _ _).symm, fun Γ' => ?_⟩
    rw [List.append_assoc]
    exact .groupRhs hb (hat _)
  | .body h1 =>
    obtain ⟨inner, rfl, hat⟩ := h1.rebase
    refine ⟨_, (List.append_assoc _ _ _).symm, fun Γ' => ?_⟩
    rw [List.append_assoc]
    exact .body (hat _)
  | .seqComp h1 =>
    obtain ⟨inner, rfl, hat⟩ := h1.rebase
    exact ⟨inner, rfl, fun Γ' => .seqComp (hat Γ')⟩
  | .seqRest h1 =>
    obtain ⟨inner, rfl, hat⟩ := h1.rebase
    exact ⟨inner, rfl, fun Γ' => .seqRest (hat Γ')⟩
  | .comp h1 =>
    obtain ⟨inner, rfl, hat⟩ := h1.rebase
    exact ⟨inner, rfl, fun Γ' => .comp (hat Γ')⟩

end

/-! ### uses on the walk -/

theorem selective_use : Selective Step.use? where
  opened _ _ := rfl
  closed _ := rfl
  binder _ := rfl

/-- used are what the computation itself names and what is used in its arms -/
theorem Comp.read_use (c : Comp) :
    c.read Step.use? = c.named ++ c.arms.flatMap (Expr.read Step.use?) := by
  rw [selective_use.read_comp]
  exact congrArg (· ++ _) List.filterMap_some

theorem Comp.read_use_of_arms {c : Comp} (hc : c.arms = []) : c.read Step.use? = c.named := by
  rw [Comp.read_use, hc]
  exact List.append_nil _

theorem Comp.IsPlain.read_use {c : Comp} (hc : c.IsPlain) :
    c.read Step.use? = c.operands.filterMap Imm.id? := by
  have hcallee : c.callee? = none := by
    cases c with
    | call | callForeign => exact hc.elim
    | _ => rfl
  rw [Comp.read_use_of_arms hc.arms, Comp.named, hcallee]
  rfl

theorem mem_filterMap_id? {args : List Imm} {x : Ident} :
    x ∈ args.filterMap Imm.id? ↔ Imm.id x ∈ args := by
  rw [List.mem_filterMap]
  constructor
  · rintro ⟨a, ha, hx⟩
    cases a with
    | const c => exact absurd hx (by simp [Imm.id?])
    | id y => exact Option.some.inj hx ▸ ha
  · exact fun h => ⟨.id x, h, rfl⟩

section
variable {Γ : List Ident} {x : Ident}

theorem exists_atOperands {args : List Imm} :
    (∃ Δ t, AtOperands Γ args Δ t ∧ t.ident = x) ↔ Imm.id x ∈ args := by
  constructor
  · rintro ⟨Δ, t, ⟨y, hy, rfl, rfl⟩, rfl⟩
    exact hy
  · intro hx
    exact ⟨Γ, .operand x, ⟨x, hx, rfl, rfl⟩, rfl⟩

/-- places of two parts -/
theorem exists_at_or {P Q : List Ident → Site → Prop} :
    (∃ Δ t, (P Δ t ∨ Q Δ t) ∧ t.ident = x) ↔
      (∃ Δ t, P Δ t ∧ t.ident = x) ∨ ∃ Δ t, Q Δ t ∧ t.ident = x := by
  simp only [or_and_right, exists_or]

theorem mem_read_plain {c : Comp} (hc : c.IsPlain) :
    x ∈ c.read Step.use? ↔ ∃ Δ t, c.At Γ Δ t ∧ t.ident = x := by
  simp only [hc.read_use, mem_filterMap_id?, hc.at_iff, exists_atOperands]

theorem mem_read_callee {f : Ident} {args : List Imm} {t : Site} (ht : t.ident = f) :
    x ∈ f :: args.filterMap Imm.id? ↔
      ∃ Δ u, ((Δ = Γ ∧ u = t) ∨ AtOperands Γ args Δ u) ∧ u.ident = x := by
  rw [exists_at_or, exists_atOperands, List.mem_cons, mem_filterMap_id?]
  refine or_congr_left ⟨?_, ?_⟩
  · rintro rfl
    exact ⟨Γ, t, ⟨rfl, rfl⟩, ht⟩
  · rintro ⟨Δ, u, ⟨rfl, rfl⟩, rfl⟩
    exact ht

end

mutual

theorem Comp.mem_read_use (c : Comp) (Γ : List Ident) {x : Ident} :
    x ∈ c.read Step.use? ↔ ∃ Δ t, c.At Γ Δ t ∧ t.ident = x := by
  match c with
  | .branch cond thenArm elseArm =>
    have hcond : x ∈ (Comp.branch cond thenArm elseArm).named ↔ Imm.id x ∈ [cond] :=
      mem_filterMap_id?
    rw [Comp.read_use, List.mem_append, hcond, Comp.flatMap_arms, List.mem_append,
      thenArm.mem_read_use Γ, elseArm.mem_read_use Γ]
    simp only [Comp.at_branch, exists_at_or, exists_atOperands]
  | .call f args | .callForeign f args =>
    rw [Comp.read_use_of_arms rfl]
    simp only [Comp.at_call, Comp.at_callForeign]
    exact mem_read_callee rfl
  | .imm _ | .prim1 _ _ | .prim2 _ _ _ | .adt _ _ _ | .tuple _ | .tupleGet _ _ | .boxNew _
  | .unbox _ | .boxSet _ _ | .fail _ => exact mem_read_plain trivial

theorem Binding.mem_reads_use (bs : List Binding) (kind : LetKind) (Γ : List Ident) {x : Ident} :
    x ∈ Binding.reads Step.use? bs ↔ ∃ Δ t, Binding.At kind Γ bs Δ t ∧ t.ident = x := by
  match bs with
  | [] => simp [Binding.reads, Binding.walks, Binding.At]
  | ⟨id, c, span⟩ :: bs =>
    rw [selective_use.reads_cons, List.mem_append, c.mem_read_use Γ,
      Binding.mem_reads_use bs kind (kind.reach Γ id)]
    simp only [Binding.At, exists_at_or]

theorem Expr.mem_read_use (e : Expr) (Γ : List Ident) {x : Ident} :
    x ∈ e.read Step.use? ↔ ∃ Δ t, e.At Γ Δ t ∧ t.ident = x := by
  match e with
  | .letIn kind bs body =>
    rw [selective_use.read_letIn, List.mem_append, Binding.mem_reads_use bs kind (kind.entry Γ bs),
      body.mem_read_use ((ids bs).reverse ++ Γ)]
    simp only [Expr.at_let, exists_at_or]
  | .seq c rest =>
    rw [selective_use.read_seq, List.mem_append, c.mem_read_use Γ, rest.mem_read_use Γ]
    simp only [Expr.at_seq, exists_at_or]
  | .comp c =>
    rw [selective_use.read_tail, c.mem_read_use Γ]
    simp only [Expr.at_comp]

end

theorem Comp.mem_mentions {c : Comp} {x : Ident} : x ∈ c.mentions ↔ c.Mentions x := by
  constructor
  · intro h
    exact ⟨[], (c.mem_read_use []).mp h⟩
  · rintro ⟨Γ, h⟩
    exact (c.mem_read_use Γ).mpr h

/-! ### recursive groups -/

mutual

inductive Comp.HasGroup : Comp → List Binding → Prop where
  | thenArm {cond : Imm} {thenArm elseArm : Expr} {bs : List Binding} :
      Expr.HasGroup thenArm bs → Comp.HasGroup (.branch cond thenArm elseArm) bs
  | elseArm {cond : Imm} {thenArm elseArm : Expr} {bs : List Binding} :
      Expr.HasGroup elseArm bs → Comp.HasGroup (.branch cond thenArm elseArm) bs

inductive Expr.HasGroup : Expr → List Binding → Prop where
  | here {bs : List Binding} {body : Expr} : Expr.HasGroup (.letIn .recursive bs body) bs
  | rhs {kind : LetKind} {bs gs : List Binding} {b : Binding} {body : Expr} :
      b ∈ bs → Comp.HasGroup b.comp gs → Expr.HasGroup (.letIn kind bs body) gs
  | body {kind : LetKind} {bs gs : List Binding} {body : Expr} :
      Expr.HasGroup body gs → Expr.HasGroup (.letIn kind bs body) gs
  | seqComp {c : Comp} {rest : Expr} {gs : List Binding} :
      Comp.HasGroup c gs → Expr.HasGroup (.seq c rest) gs
  | seqRest {c : Comp} {rest : Expr} {gs : List Binding} :
      Expr.HasGroup rest gs → Expr.HasGroup (.seq c rest) gs
  | comp {c : Comp} {gs : List Binding} : Comp.HasGroup c gs → Expr.HasGroup (.comp c) gs

end

/-- the right-hand side of `x` mentions `y`, and both are of the group -/
def GroupMention (bs : List Binding) (x y : Ident) : Prop :=
  ∃ b ∈ bs, b.id = x ∧ b.comp.Mentions y ∧ y.stamp ∈ stamps (ids bs)

def Comp.Cyclic (c : Comp) (x y : Ident) : Prop := ∃ bs, c.HasGroup bs ∧ GroupMention bs x y

def Expr.Cyclic (e : Expr) (x y : Ident) : Prop := ∃ bs, e.HasGroup bs ∧ GroupMention bs x y

section
variable {x y : Ident}

theorem Comp.not_cyclic {c : Comp} (hc : c.arms = []) : ¬c.Cyclic x y := by
  rintro ⟨bs, h, -⟩
  cases h with
  | thenArm _ | elseArm _ => exact absurd hc (List.cons_ne_nil _ _)

theorem Comp.cyclic_branch {cond : Imm} {thenArm elseArm : Expr} :
    (Comp.branch cond thenArm elseArm).Cyclic x y ↔ thenArm.Cyclic x y ∨ elseArm.Cyclic x y := by
  constructor
  · rintro ⟨bs, h, hm⟩
    cases h with
    | thenArm h => exact .inl ⟨bs, h, hm⟩
    | elseArm h => exact .inr ⟨bs, h, hm⟩
  · rintro (⟨bs, h, hm⟩ | ⟨bs, h, hm⟩)
    · exact ⟨bs, .thenArm h, hm⟩
    · exact ⟨bs, .elseArm h, hm⟩

theorem Expr.cyclic_let {kind : LetKind} {bs : List Binding} {body : Expr} :
    (Expr.letIn kind bs body).Cyclic x y ↔ (kind = .recursive ∧ GroupMention bs x y) ∨
      (∃ b ∈ bs, b.comp.Cyclic x y) ∨ body.Cyclic x y := by
  constructor
  · rintro ⟨gs, h, hm⟩
    cases h with
    | here => exact .inl ⟨rfl, hm⟩
    | rhs hb h => exact .inr (.inl ⟨_, hb, gs, h, hm⟩)
    | body h => exact .inr (.inr ⟨gs, h, hm⟩)
  · rintro (⟨rfl, hm⟩ | ⟨b, hb, gs, h, hm⟩ | ⟨gs, h, hm⟩)
    · exact ⟨bs, .here, hm⟩
    · exact ⟨gs, .rhs hb h, hm⟩
    · exact ⟨gs, .body h, hm⟩

theorem Expr.cyclic_seq {c : Comp} {rest : Expr} :
    (Expr.seq c rest).Cyclic x y ↔ c.Cyclic x y ∨ rest.Cyclic x y := by
  constructor
  · rintro ⟨gs, h, hm⟩
    cases h with
    | seqComp h => exact .inl ⟨gs, h, hm⟩
    | seqRest h => exact .inr ⟨gs, h, hm⟩
  · rintro (⟨gs, h, hm⟩ | ⟨gs, h, hm⟩)
    · exact ⟨gs, .seqComp h, hm⟩
    · exact ⟨gs, .seqRest h, hm⟩

theorem Expr.cyclic_comp {c : Comp} : (Expr.comp c).Cyclic x y ↔ c.Cyclic x y := by
  constructor
  · rintro ⟨gs, h, hm⟩
    cases h with
    | comp h => exact ⟨gs, h, hm⟩
  · rintro ⟨gs, h, hm⟩
    exact ⟨gs, .comp h, hm⟩

end

end AnfWasm
