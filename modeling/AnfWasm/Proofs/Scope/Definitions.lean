import AnfWasm.Proofs.Scope.Sites

/-!
# Bindings and what is in scope at them

`Expr.Defines Γ Δ d e` says that a let of `e` has the binding `d` and that the bindings `Δ` are in
scope at it, when `Γ` are in scope at `e`.  How far a binding reaches is as for places
(`Expr.At`); here a scope has whole bindings with the kinds of their lets, and no parameters.

A definition is a binder of the expression and conversely, and what is in scope at a binding of a
sequential let comes before it (`Expr.sublist_of_defines`).
-/

namespace AnfWasm

/-- A binding of a let of that kind. -/
structure Def where
  kind : LetKind
  binding : Binding

namespace Def

def id (d : Def) : Ident := d.binding.id

def comp (d : Def) : Comp := d.binding.comp

/-- the bindings of a let, the last one first -/
def ofLet (kind : LetKind) (bs : List Binding) : List Def := (bs.map (Def.mk kind)).reverse

/-- what is in scope at the first binding of a let -/
def atFirst (kind : LetKind) (Γ : List Def) (bs : List Binding) : List Def :=
  match kind with
  | .sequential => Γ
  | .recursive => ofLet .recursive bs ++ Γ

/-- what is in scope at the binding after `b` -/
def atNext (kind : LetKind) (Γ : List Def) (b : Binding) : List Def :=
  match kind with
  | .sequential => ⟨.sequential, b⟩ :: Γ
  | .recursive => Γ

theorem mem_ofLet {kind : LetKind} {bs : List Binding} {d : Def} :
    d ∈ ofLet kind bs ↔ ∃ b ∈ bs, d = ⟨kind, b⟩ := by
  rw [ofLet, List.mem_reverse, List.mem_map]
  exact exists_congr fun b => and_congr_right fun _ => eq_comm

theorem ofLet_cons_append (kind : LetKind) (b : Binding) (bs : List Binding) (Γ : List Def) :
    ofLet kind (b :: bs) ++ Γ = ofLet kind bs ++ ⟨kind, b⟩ :: Γ := by
  rw [ofLet, List.map_cons, List.reverse_cons, List.append_assoc]
  rfl

end Def

mutual

def Comp.Defines (Γ Δ : List Def) (d : Def) : Comp → Prop
  | .branch _ thenArm elseArm => thenArm.Defines Γ Δ d ∨ elseArm.Defines Γ Δ d
  | _ => False

/-- definitions of a list of bindings and in their right-hand sides; `Γ` is in scope at the first -/
def Binding.Defines (kind : LetKind) (Γ Δ : List Def) (d : Def) : List Binding → Prop
  | [] => False
  | ⟨id, comp, span⟩ :: bs => comp.Defines Γ Δ d ∨ (Δ = Γ ∧ d = ⟨kind, ⟨id, comp, span⟩⟩) ∨
      Binding.Defines kind (Def.atNext kind Γ ⟨id, comp, span⟩) Δ d bs

def Expr.Defines (Γ Δ : List Def) (d : Def) : Expr → Prop
  | .letIn kind bindings body => Binding.Defines kind (Def.atFirst kind Γ bindings) Δ d bindings ∨
      body.Defines (Def.ofLet kind bindings ++ Γ) Δ d
  | .seq comp rest => comp.Defines Γ Δ d ∨ rest.Defines Γ Δ d
  | .comp comp => comp.Defines Γ Δ d

end

/-- nothing is in scope where a function or the entry starts -/
def Program.Defines (p : Program) (Δ : List Def) (d : Def) : Prop :=
  (∃ f ∈ p.functions, f.body.Defines [] Δ d) ∨ p.body.Defines [] Δ d

/-! ### definitions and binders -/

mutual

theorem Comp.mem_binders_of_defines (c : Comp) {Γ Δ : List Def} {d : Def}
    (h : c.Defines Γ Δ d) : d.id ∈ c.binders := by
  match c with
  | .branch cond thenArm elseArm =>
    rcases h with h | h
    · exact List.mem_append_left _ (thenArm.mem_binders_of_defines h)
    · exact List.mem_append_right _ (elseArm.mem_binders_of_defines h)
  | .imm _ | .prim1 _ _ | .prim2 _ _ _ | .adt _ _ _ | .tuple _ | .tupleGet _ _ | .boxNew _
  | .unbox _ | .boxSet _ _ | .call _ _ | .callForeign _ _ | .fail _ => exact h.elim

theorem Binding.mem_binders_of_defines (bs : List Binding) {kind : LetKind} {Γ Δ : List Def}
    {d : Def} (h : Binding.Defines kind Γ Δ d bs) : d.id ∈ Binding.binders bs := by
  match bs with
  | [] => exact h.elim
  | ⟨id, comp, span⟩ :: bs =>
    rcases h with h | ⟨-, rfl⟩ | h
    · exact List.mem_append_left _ (comp.mem_binders_of_defines h)
    · exact List.mem_append_right _ List.mem_cons_self
    · exact List.mem_append_right _
        (List.mem_cons_of_mem _ (Binding.mem_binders_of_defines bs h))

theorem Expr.mem_binders_of_defines (e : Expr) {Γ Δ : List Def} {d : Def}
    (h : e.Defines Γ Δ d) : d.id ∈ e.binders := by
  match e with
  | .letIn kind bs body =>
    rcases h with h | h
    · exact List.mem_append_left _ (Binding.mem_binders_of_defines bs h)
    · exact List.mem_append_right _ (body.mem_binders_of_defines h)
  | .seq comp rest =>
    rcases h with h | h
    · exact List.mem_append_left _ (comp.mem_binders_of_defines h)
    · exact List.mem_append_right _ (rest.mem_binders_of_defines h)
  | .comp comp => exact comp.mem_binders_of_defines h

end

mutual

theorem Comp.defines_of_mem_binders (c : Comp) {x : Ident} (Γ : List Def) (h : x ∈ c.binders) :
    ∃ Δ d, c.Defines Γ Δ d ∧ d.id = x := by
  match c with
  | .branch cond thenArm elseArm =>
    rcases List.mem_append.mp h with h | h
    · obtain ⟨Δ, d, hd, hx⟩ := thenArm.defines_of_mem_binders Γ h
      exact ⟨Δ, d, .inl hd, hx⟩
    · obtain ⟨Δ, d, hd, hx⟩ := elseArm.defines_of_mem_binders Γ h
      exact ⟨Δ, d, .inr hd, hx⟩
  | .imm _ | .prim1 _ _ | .prim2 _ _ _ | .adt _ _ _ | .tuple _ | .tupleGet _ _ | .boxNew _
  | .unbox _ | .boxSet _ _ | .call _ _ | .callForeign _ _ | .fail _ =>
    exact absurd h List.not_mem_nil

theorem Binding.defines_of_mem_binders (bs : List Binding) {x : Ident} (kind : LetKind)
    (Γ : List Def) (h : x ∈ Binding.binders bs) :
    ∃ Δ d, Binding.Defines kind Γ Δ d bs ∧ d.id = x := by
  match bs with
  | [] => exact absurd h List.not_mem_nil
  | ⟨id, comp, span⟩ :: bs =>
    rcases List.mem_append.mp h with h | h
    · obtain ⟨Δ, d, hd, hx⟩ := comp.defines_of_mem_binders Γ h
      exact ⟨Δ, d, .inl hd, hx⟩
    · rcases List.mem_cons.mp h with rfl | h
      · exact ⟨Γ, _, .inr (.inl ⟨rfl, rfl⟩), rfl⟩
      · obtain ⟨Δ, d, hd, hx⟩ := Binding.defines_of_mem_binders bs kind _ h
        exact ⟨Δ, d, .inr (.inr hd), hx⟩

theorem Expr.defines_of_mem_binders (e : Expr) {x : Ident} (Γ : List Def) (h : x ∈ e.binders) :
    ∃ Δ d, e.Defines Γ Δ d ∧ d.id = x := by
  match e with
  | .letIn kind bs body =>
    rcases List.mem_append.mp h with h | h
    · obtain ⟨Δ, d, hd, hx⟩ := Binding.defines_of_mem_binders bs kind _ h
      exact ⟨Δ, d, .inl hd, hx⟩
    · obtain ⟨Δ, d, hd, hx⟩ := body.defines_of_mem_binders _ h
      exact ⟨Δ, d, .inr hd, hx⟩
  | .seq comp rest =>
    rcases List.mem_append.mp h with h | h
    · obtain ⟨Δ, d, hd, hx⟩ := comp.defines_of_mem_binders Γ h
      exact ⟨Δ, d, .inl hd, hx⟩
    · obtain ⟨Δ, d, hd, hx⟩ := rest.defines_of_mem_binders Γ h
      exact ⟨Δ, d, .inr hd, hx⟩
  | .comp comp => exact comp.defines_of_mem_binders Γ h

end

/-! ### what is in scope comes first -/

mutual

theorem Comp.sublist_of_defines (c : Comp) {Γ Δ : List Def} {d d' : Def} (h : c.Defines Γ Δ d)
    (hd' : d' ∈ Δ) (hk : d'.kind = .sequential) : d' ∈ Γ ∨ [d'.id, d.id].Sublist c.binders := by
  match c with
  | .branch cond thenArm elseArm =>
    rcases h with h | h
    · exact (thenArm.sublist_of_defines h hd' hk).imp_right
        fun hs => hs.trans (List.sublist_append_left _ _)
    · exact (elseArm.sublist_of_defines h hd' hk).imp_right
        fun hs => hs.trans (List.sublist_append_right _ _)
  | .imm _ | .prim1 _ _ | .prim2 _ _ _ | .adt _ _ _ | .tuple _ | .tupleGet _ _ | .boxNew _
  | .unbox _ | .boxSet _ _ | .call _ _ | .callForeign _ _ | .fail _ => exact h.elim

theorem Binding.sublist_of_defines (bs : List Binding) {kind : LetKind} {Γ Δ : List Def}
    {d d' : Def} (h : Binding.Defines kind Γ Δ d bs) (hd' : d' ∈ Δ) (hk : d'.kind = .sequential) :
    d' ∈ Γ ∨ [d'.id, d.id].Sublist (Binding.binders bs) := by
  match bs with
  | [] => exact h.elim
  | ⟨id, comp, span⟩ :: bs =>
    rcases h with h | ⟨rfl, rfl⟩ | h
    · exact (comp.sublist_of_defines h hd' hk).imp_right
        fun hs => hs.trans (List.sublist_append_left _ _)
    · exact .inl hd'
    · have hafter : (id :: Binding.binders bs).Sublist
          (Binding.binders (⟨id, comp, span⟩ :: bs)) := List.sublist_append_right _ _
      rcases Binding.sublist_of_defines bs h hd' hk with hΓ | hs
      · cases kind with
        | recursive => exact .inl hΓ
        | sequential =>
          rcases List.mem_cons.mp hΓ with rfl | hΓ
          · have hlast := List.singleton_sublist.mpr (Binding.mem_binders_of_defines bs h)
            exact .inr ((hlast.cons_cons id).trans hafter)
          · exact .inl hΓ
      · exact .inr ((hs.cons id).trans hafter)

theorem Expr.sublist_of_defines (e : Expr) {Γ Δ : List Def} {d d' : Def} (h : e.Defines Γ Δ d)
    (hd' : d' ∈ Δ) (hk : d'.kind = .sequential) : d' ∈ Γ ∨ [d'.id, d.id].Sublist e.binders := by
  match e with
  | .letIn kind bs body =>
    rcases h with h | h
    · rcases Binding.sublist_of_defines bs h hd' hk with hΓ | hs
      · cases kind with
        | sequential => exact .inl hΓ
        | recursive =>
          -- a binding of the group itself is not of a sequential let
          rcases List.mem_append.mp hΓ with hΓ | hΓ
          · obtain ⟨b, -, rfl⟩ := Def.mem_ofLet.mp hΓ
            exact absurd hk (by simp)
          · exact .inl hΓ
      · exact .inr (hs.trans (List.sublist_append_left _ _))
    · rcases body.sublist_of_defines h hd' hk with hΓ | hs
      · rcases List.mem_append.mp hΓ with hΓ | hΓ
        · obtain ⟨b, hb, rfl⟩ := Def.mem_ofLet.mp hΓ
          have hfirst : b.id ∈ Binding.binders bs :=
            ids_subset_binders bs (List.mem_map.mpr ⟨b, hb, rfl⟩)
          have hlast := body.mem_binders_of_defines h
          exact .inr ((List.singleton_sublist.mpr hfirst).append
            (List.singleton_sublist.mpr hlast))
        · exact .inl hΓ
      · exact .inr (hs.trans (List.sublist_append_right _ _))
  | .seq comp rest =>
    rcases h with h | h
    · exact (comp.sublist_of_defines h hd' hk).imp_right
        fun hs => hs.trans (List.sublist_append_left _ _)
    · exact (rest.sublist_of_defines h hd' hk).imp_right
        fun hs => hs.trans (List.sublist_append_right _ _)
  | .comp comp => exact comp.sublist_of_defines h hd' hk

end

namespace Program
variable {p : Program} {Δ : List Def} {d d' : Def}

/-- the identifiers that lets bind -/
def letBinders (p : Program) : List Ident :=
  p.functions.flatMap (fun f => f.body.binders) ++ p.body.binders

theorem letBinders_sublist (p : Program) : p.letBinders.Sublist p.binders := by
  have hfuns : (p.functions.flatMap fun f => f.body.binders).Sublist
      (p.functions.flatMap Func.binders) := by
    induction p.functions with
    | nil => exact List.Sublist.refl _
    | cons f fs ih =>
      rw [List.flatMap_cons, List.flatMap_cons]
      exact (List.sublist_append_right f.params f.body.binders).append ih
  rw [letBinders, binders, List.append_assoc]
  exact (hfuns.append (List.Sublist.refl _)).trans (List.sublist_append_right _ _)

theorem defines_of_mem_letBinders {x : Ident} (h : x ∈ p.letBinders) :
    ∃ Δ d, p.Defines Δ d ∧ d.id = x := by
  rcases List.mem_append.mp h with h | h
  · obtain ⟨f, hf, hx⟩ := List.mem_flatMap.mp h
    obtain ⟨Δ, d, hd, rfl⟩ := f.body.defines_of_mem_binders [] hx
    exact ⟨Δ, d, .inl ⟨f, hf, hd⟩, rfl⟩
  · obtain ⟨Δ, d, hd, rfl⟩ := p.body.defines_of_mem_binders [] h
    exact ⟨Δ, d, .inr hd, rfl⟩

/-- **What a sequential let has brought into scope at a binding is bound before it.** -/
theorem sublist_of_defines (h : p.Defines Δ d) (hd' : d' ∈ Δ) (hk : d'.kind = .sequential) :
    [d'.id, d.id].Sublist p.letBinders := by
  rcases h with ⟨f, hf, h⟩ | h
  · rcases f.body.sublist_of_defines h hd' hk with hΓ | hs
    · exact absurd hΓ List.not_mem_nil
    · have hone : f.body.binders.Sublist (p.functions.flatMap fun f => f.body.binders) :=
        List.sublist_flatten_of_mem (List.mem_map_of_mem hf)
      exact (hs.trans hone).trans (List.sublist_append_left _ _)
  · rcases p.body.sublist_of_defines h hd' hk with hΓ | hs
    · exact absurd hΓ List.not_mem_nil
    · exact hs.trans (List.sublist_append_right _ _)

end Program

end AnfWasm
