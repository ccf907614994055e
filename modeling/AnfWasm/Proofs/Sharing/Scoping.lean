import AnfWasm.Compilation
import AnfWasm.Proofs.Scope.Checker
import AnfWasm.Proofs.Sharing.Substitution

/-!
# Sharing keeps programs well-formed

A rewritten expression stands in a scope of its own, without the binders that are replaced.
`Covers F T Γ Γ'` says that this scope `Γ'` has what stands for each binder of `Γ`, and each
construction of the table.  Both come into scope with the same bindings, so a use that was in order
is in order after the rewriting (`Expr.sound_rewrite`).

* `Program.wellFormed_share`   a shared program is well-formed;
* `Program.check_share`        so the check of an optimized program cannot fail.
-/

namespace AnfWasm
open Sharing

/-! ### binders -/

theorem binders_letOf (kind : LetKind) (bs : List Binding) (body : Expr) :
    (letOf kind bs body).binders = Binding.binders bs ++ body.binders := by
  cases bs <;> rfl

mutual

theorem Comp.binders_rewrite (F : Merges) (c : Comp) : (c.rewrite F).binders.Sublist c.binders := by
  match c with
  | .branch cond thenArm elseArm =>
    exact (thenArm.binders_rewrite F).append (elseArm.binders_rewrite F)
  | .imm _ | .prim1 _ _ | .prim2 _ _ _ | .adt _ _ _ | .tuple _ | .tupleGet _ _ | .boxNew _
  | .unbox _ | .boxSet _ _ | .call _ _ | .callForeign _ _ | .fail _ => exact List.Sublist.refl _

theorem Binding.binders_keptOf (F : Merges) (bs : List Binding) :
    (Binding.binders (Binding.keptOf F bs)).Sublist (Binding.binders bs) := by
  match bs with
  | [] => exact List.Sublist.refl _
  | ⟨id, comp, span⟩ :: bs =>
    have ih := Binding.binders_keptOf F bs
    cases h : replacement? F id.stamp with
    | none =>
      rw [Binding.keptOf_cons_of_none h]
      exact (comp.binders_rewrite F).append (ih.cons_cons id)
    | some a =>
      rw [Binding.keptOf_cons_of_some h]
      exact (ih.cons id).trans (List.sublist_append_right _ _)

theorem Expr.binders_rewrite (F : Merges) (e : Expr) : (e.rewrite F).binders.Sublist e.binders := by
  match e with
  | .letIn kind bs body =>
    have h : ((Expr.letIn kind bs body).rewrite F).binders =
        Binding.binders (Binding.keptOf F bs) ++ (body.rewrite F).binders := binders_letOf _ _ _
    rw [h]
    exact (Binding.binders_keptOf F bs).append (body.binders_rewrite F)
  | .seq comp rest => exact (comp.binders_rewrite F).append (rest.binders_rewrite F)
  | .comp comp => exact comp.binders_rewrite F

end

/-! ### scopes -/

namespace Sharing

/-- The scope `Γ'` has what stands for the binders of `Γ`, and the available constructions. -/
structure Covers (F : Merges) (T : Available) (Γ Γ' : List Ident) : Prop where
  standIn : ∀ x, InScope Γ x → InScope Γ' (standIn F x)
  table : ∀ k a, (k, a) ∈ T → InScope Γ' a

theorem inScope_cons {Γ : List Ident} {x y : Ident} :
    InScope (y :: Γ) x ↔ y.stamp = x.stamp ∨ InScope Γ x := by
  simp [InScope]

theorem standIn_of_none {F : Merges} {x y : Ident} (h : replacement? F x.stamp = none)
    (hxy : x.stamp = y.stamp) : standIn F y = y := by
  unfold standIn
  rw [← hxy, h]
  rfl

theorem standIn_of_some {F : Merges} {x y a : Ident} (h : replacement? F x.stamp = some a)
    (hxy : x.stamp = y.stamp) : standIn F y = a := by
  unfold standIn
  rw [← hxy, h]
  rfl

namespace Covers
variable {F : Merges} {T : Available} {Γ Γ' : List Ident}

/-- a binder that is not replaced comes into both scopes -/
theorem keep (h : Covers F T Γ Γ') {x : Ident} (hx : replacement? F x.stamp = none) :
    Covers F T (x :: Γ) (x :: Γ') where
  standIn y hy := by
    rw [inScope_cons] at hy ⊢
    rcases hy with hy | hy
    · rw [standIn_of_none hx hy]
      exact .inl hy
    · exact .inr (h.standIn y hy)
  table k a ha := inScope_cons.mpr (.inr (h.table k a ha))

theorem keepAll (h : Covers F T Γ Γ') (xs : List Ident)
    (hxs : ∀ x ∈ xs, replacement? F x.stamp = none) :
    Covers F T (xs.reverse ++ Γ) (xs.reverse ++ Γ') := by
  induction xs generalizing Γ Γ' with
  | nil => exact h
  | cons x xs ih =>
    rw [List.reverse_cons, List.append_assoc, List.append_assoc]
    obtain ⟨hx, hxs⟩ := List.forall_mem_cons.mp hxs
    exact ih (h.keep hx) hxs

/-- the place of a binder that is replaced is taken by a construction of the table -/
theorem drop (h : Covers F T Γ Γ') {x a : Ident} {k : Key} (hx : replacement? F x.stamp = some a)
    (ha : (k, a) ∈ T) : Covers F T (x :: Γ) Γ' where
  standIn y hy := by
    rcases inScope_cons.mp hy with hy | hy
    · rw [standIn_of_some hx hy]
      exact h.table k a ha
    · exact h.standIn y hy
  table := h.table

theorem extend (h : Covers F T Γ Γ') (kind : LetKind) {x : Ident} (c : Comp) (hx : InScope Γ' x) :
    Covers F (Sharing.extend kind T x c) Γ Γ' where
  standIn := h.standIn
  table k a ha := by
    rcases extend_cases kind T x c with he | ⟨k', -, -, -, -, he⟩
    · exact h.table k a (he ▸ ha)
    · rw [he] at ha
      rcases List.mem_cons.mp ha with ha | ha
      · obtain ⟨-, rfl⟩ := Prod.mk.inj ha
        exact hx
      · exact h.table k a ha

end Covers

theorem ids_keptOf {F : Merges} {bs : List Binding}
    (h : ∀ x ∈ ids bs, replacement? F x.stamp = none) : ids (Binding.keptOf F bs) = ids bs := by
  induction bs with
  | nil => rfl
  | cons b bs ih =>
    obtain ⟨id, comp, span⟩ := b
    obtain ⟨hid, hbs⟩ := List.forall_mem_cons.mp h
    rw [Binding.keptOf_cons_of_none hid]
    exact congrArg (id :: ·) (ih hbs)

namespace Covers
variable {F : Merges} {T : Available} {Γ Γ' : List Ident} {kind : LetKind}

theorem entry {bs : List Binding} (h : Covers F T Γ Γ') (hj : Binding.Justified F kind T bs) :
    Covers F T (kind.entry Γ bs) (kind.entry Γ' (Binding.keptOf F bs)) := by
  cases kind with
  | sequential => exact h
  | recursive =>
    show Covers F T ((ids bs).reverse ++ Γ) ((ids (Binding.keptOf F bs)).reverse ++ Γ')
    rw [ids_keptOf (group_kept hj)]
    exact h.keepAll (ids bs) (group_kept hj)

/-- the scopes after a binding that stays -/
theorem reach_of_none {x : Ident} {c : Comp} (h : Covers F T Γ Γ')
    (hx : replacement? F x.stamp = none) :
    Covers F (Sharing.extend kind T x c) (kind.reach Γ x) (kind.reach Γ' x) := by
  cases kind with
  | sequential => exact (h.keep hx).extend .sequential c (inScope_cons.mpr (.inl rfl))
  | recursive => exact h

/-- the scopes after a binding that goes -/
theorem reach_of_some {x a : Ident} {c : Comp} (h : Covers F T Γ Γ')
    (hx : replacement? F x.stamp = some a) (hj : replacement? F x.stamp = available? kind T c) :
    Covers F (Sharing.extend kind T x c) (kind.reach Γ x) Γ' := by
  have ha : available? kind T c = some a := hj.symm.trans hx
  rw [extend_of_available ha]
  cases kind with
  | sequential =>
    obtain ⟨k, -, hk⟩ := mem_of_available? ha
    exact h.drop hx hk
  | recursive => exact h

end Covers

end Sharing

/-! ### uses -/

/-- the uses at those places are in order -/
def SoundAt (p : Program) (At : List Ident → Site → Prop) : Prop := ∀ Δ t, At Δ t → t.Sound p Δ

theorem Expr.at_letOf {kind : LetKind} {bs : List Binding} {body : Expr} {Γ Δ : List Ident}
    {t : Site} : (letOf kind bs body).At Γ Δ t ↔
      Binding.At kind (kind.entry Γ bs) bs Δ t ∨ body.At ((ids bs).reverse ++ Γ) Δ t := by
  cases bs with
  | nil => simp [letOf, Binding.At, ids]
  | cons b bs => exact Expr.at_let

section
variable {p : Program} {F : Merges} {T : Available} {Γ Γ' : List Ident}

theorem sound_operands {args : List Imm} (hc : Covers F T Γ Γ')
    (h : SoundAt p (AtOperands Γ args)) :
    SoundAt p (AtOperands Γ' (args.map (standInImm F))) := by
  rintro Δ t ⟨y, hy, rfl, rfl⟩
  obtain ⟨a, ha, hay⟩ := List.mem_map.mp hy
  cases a with
  | const c => exact absurd hay Imm.noConfusion
  | id x =>
    obtain rfl : standIn F x = y := Imm.id.inj hay
    exact hc.standIn x (h Γ (.operand x) ⟨x, ha, rfl, rfl⟩)

theorem sound_plain {c : Comp} (hp : c.IsPlain) (hc : Covers F T Γ Γ') (h : SoundAt p (c.At Γ)) :
    SoundAt p ((c.rewrite F).At Γ') := by
  have hr : c.rewrite F = c.mapOperands (standInImm F) := rewrite_plain hp.arms
  have hp' : (c.mapOperands (standInImm F)).IsPlain := by
    cases c <;> exact hp
  have hat := sound_operands hc fun Δ t ht => h Δ t (hp.at_iff.mpr ht)
  intro Δ t ht
  rw [hr, hp'.at_iff, Comp.operands_mapOperands] at ht
  exact hat Δ t ht

end

mutual

theorem Comp.sound_rewrite (c : Comp) {p : Program} {F : Merges} {T : Available}
    {Γ Γ' : List Ident} (hc : Covers F T Γ Γ') (hj : c.Justified F T) (h : SoundAt p (c.At Γ)) :
    SoundAt p ((c.rewrite F).At Γ') := by
  match c with
  | .branch cond thenArm elseArm =>
    have h0 := sound_operands hc fun Δ t ht => h Δ t (Comp.at_branch.mpr (.inl ht))
    have h1 := thenArm.sound_rewrite hc hj.1 fun Δ t ht => h Δ t (.thenArm ht)
    have h2 := elseArm.sound_rewrite hc hj.2 fun Δ t ht => h Δ t (.elseArm ht)
    intro Δ t ht
    rcases Comp.at_branch.mp ht with ht | ht | ht
    · exact h0 Δ t ht
    · exact h1 Δ t ht
    · exact h2 Δ t ht
  | .call f args =>
    have h0 := sound_operands hc fun Δ t ht => h Δ t (Comp.at_call.mpr (.inr ht))
    intro Δ t ht
    rcases Comp.at_call.mp ht with ⟨rfl, rfl⟩ | ht
    · rw [List.length_map]
      exact h Γ _ .call
    · exact h0 Δ t ht
  | .callForeign f args =>
    have h0 := sound_operands hc fun Δ t ht => h Δ t (Comp.at_callForeign.mpr (.inr ht))
    intro Δ t ht
    rcases Comp.at_callForeign.mp ht with ⟨rfl, rfl⟩ | ht
    · rw [List.length_map]
      exact h Γ _ .callForeign
    · exact h0 Δ t ht
  | .imm _ | .prim1 _ _ | .prim2 _ _ _ | .adt _ _ _ | .tuple _ | .tupleGet _ _ | .boxNew _
  | .unbox _ | .boxSet _ _ | .fail _ => exact sound_plain trivial hc h

theorem Binding.sound_keptOf (bs : List Binding) {p : Program} {F : Merges} {T : Available}
    {Γ Γ' : List Ident} {kind : LetKind} (hc : Covers F T Γ Γ') (hj : Binding.Justified F kind T bs)
    (h : SoundAt p (Binding.At kind Γ bs)) :
    SoundAt p (Binding.At kind Γ' (Binding.keptOf F bs)) ∧
      Covers F (extendAll F kind T bs) (kind.exit Γ bs) (kind.exit Γ' (Binding.keptOf F bs)) := by
  match bs with
  | [] => exact ⟨fun _ _ ht => ht.elim, hc⟩
  | ⟨id, comp, span⟩ :: bs =>
    obtain ⟨hj1, hj2, hj3⟩ := hj
    have h2 : SoundAt p (Binding.At kind (kind.reach Γ id) bs) := fun Δ t ht => h Δ t (.inr ht)
    cases hid : replacement? F id.stamp with
    | none =>
      have h1 := comp.sound_rewrite hc hj1 fun Δ t ht => h Δ t (.inl ht)
      obtain ⟨h3, hc'⟩ := Binding.sound_keptOf bs (hc.reach_of_none hid) hj3 h2
      rw [Binding.keptOf_cons_of_none hid]
      refine ⟨fun Δ t ht => ?_, hc'⟩
      rcases ht with ht | ht
      · exact h1 Δ t ht
      · exact h3 Δ t ht
    | some a =>
      rw [Binding.keptOf_cons_of_some hid]
      exact Binding.sound_keptOf bs (hc.reach_of_some hid hj2) hj3 h2

theorem Expr.sound_rewrite (e : Expr) {p : Program} {F : Merges} {T : Available}
    {Γ Γ' : List Ident} (hc : Covers F T Γ Γ') (hj : e.Justified F T) (h : SoundAt p (e.At Γ)) :
    SoundAt p ((e.rewrite F).At Γ') := by
  match e with
  | .letIn kind bs body =>
    obtain ⟨h1, hc'⟩ := Binding.sound_keptOf bs (hc.entry hj.1) hj.1
      fun Δ t ht => h Δ t (Expr.at_let.mpr (.inl ht))
    rw [LetKind.exit_entry, LetKind.exit_entry] at hc'
    have h2 := body.sound_rewrite hc' hj.2 fun Δ t ht => h Δ t (.body ht)
    intro Δ t ht
    rcases Expr.at_letOf.mp ht with ht | ht
    · exact h1 Δ t ht
    · exact h2 Δ t ht
  | .seq comp rest =>
    have h1 := comp.sound_rewrite hc hj.1 fun Δ t ht => h Δ t (.seqComp ht)
    have h2 := rest.sound_rewrite hc hj.2 fun Δ t ht => h Δ t (.seqRest ht)
    intro Δ t ht
    rcases Expr.at_seq.mp ht with ht | ht
    · exact h1 Δ t ht
    · exact h2 Δ t ht
  | .comp comp =>
    have h1 := comp.sound_rewrite hc hj fun Δ t ht => h Δ t (.comp ht)
    exact fun Δ t ht => h1 Δ t (Expr.at_comp.mp ht)

end

/-! ### programs -/

namespace Program
variable {p : Program} {F : Merges}

theorem sound_rewrite_iff {Δ : List Ident} {t : Site} : t.Sound (p.rewrite F) Δ ↔ t.Sound p Δ := by
  cases t with
  | operand x => exact Iff.rfl
  | call f n => simp [Site.Sound, Declares, rewrite, Func.rewrite]
  | callForeign f n => exact Iff.rfl

theorem binders_rewrite (p : Program) (F : Merges) : (p.rewrite F).binders.Sublist p.binders := by
  have hids : (p.functions.map (Func.rewrite F)).map Func.id = p.functions.map Func.id := by
    rw [List.map_map]
    rfl
  have hfuns : ((p.functions.map (Func.rewrite F)).flatMap Func.binders).Sublist
      (p.functions.flatMap Func.binders) := by
    induction p.functions with
    | nil => exact List.Sublist.refl _
    | cons f fs ih =>
      rw [List.map_cons, List.flatMap_cons, List.flatMap_cons]
      exact ((List.Sublist.refl f.params).append (f.body.binders_rewrite F)).append ih
  show (p.imports.map Import.id ++ (p.functions.map (Func.rewrite F)).map Func.id
    ++ (p.functions.map (Func.rewrite F)).flatMap Func.binders
    ++ (p.body.rewrite F).binders).Sublist _
  rw [hids]
  exact ((List.Sublist.refl _).append hfuns).append (p.body.binders_rewrite F)

theorem sound_rewrite (h : SoundAt p p.At) (hj : p.Justified F) :
    SoundAt p (p.rewrite F).At := by
  have hempty : Covers F [] [] [] :=
    ⟨fun _ ⟨_, hy, _⟩ => absurd hy List.not_mem_nil, fun _ _ ha => absurd ha List.not_mem_nil⟩
  rintro Δ t (⟨g, hg, hat⟩ | hat)
  · obtain ⟨f, hf, rfl⟩ := List.mem_map.mp hg
    obtain ⟨hparams, hbody⟩ := hj.1 f hf
    have hc : Covers F [] f.params.reverse f.params.reverse := by
      have := hempty.keepAll f.params fun x hx => hparams _ (mem_stamps.mpr ⟨x, hx, rfl⟩)
      rwa [List.append_nil] at this
    exact f.body.sound_rewrite hc hbody (fun Δ t ht => h Δ t (.inl ⟨f, hf, ht⟩)) Δ t hat
  · exact p.body.sound_rewrite hempty hj.2 (fun Δ t ht => h Δ t (.inr ht)) Δ t hat

theorem wellFormed_share (h : p.WellFormed) : p.share.program.WellFormed := by
  obtain ⟨he, hj⟩ := Program.share_eq h
  obtain ⟨hb, hs⟩ := p.wellFormed_iff.mp h
  rw [he, wellFormed_iff]
  refine ⟨hb.sublist ((p.binders_rewrite _).map Ident.stamp), fun Δ t ht => ?_⟩
  exact sound_rewrite_iff.mpr (sound_rewrite hs hj Δ t ht)

end Program

/-! ### compilations -/

namespace Compilation
variable {m : Type → Type} [Monad m]

theorem verify_of_ok {p : Program} (h : p.check = .ok ()) (o : Options)
    (context : Violation → Error) : (verify o p context : Compiling m Unit) = pure () := by
  unfold verify
  rw [h]
  cases o.verify <;> rfl

theorem verify_of_error {p : Program} {v : Violation} (h : p.check = .error v) {o : Options}
    (ho : o.verify = true) (context : Violation → Error) :
    (verify o p context : Compiling m Unit) = throw (context v) := by
  unfold verify
  rw [h, if_pos ho]

variable [LawfulMonad m]

theorem optimize_of_ok {p : Program} (h : p.share.program.check = .ok ()) (o : Options) :
    (optimize o p : Compiling m Program) = optimize { o with verify := false } p := by
  unfold optimize optimized
  cases o.optimize with
  | false => rfl
  | true => simp [verify_of_ok h]

/-- a check and then a compilation without checks -/
theorem compileProgram_eq [FileSystem m] {p : Program} (output : Path) (o : Options)
    (h : p.check = .ok () → p.share.program.check = .ok ()) :
    (compileProgram p output o : Compiling m Emission.Emitted) =
      verify o p .malformed >>= fun _ => compileProgram p output { o with verify := false } := by
  cases hv : o.verify with
  | false =>
    have ho : { o with verify := false } = o := by rw [← hv]
    have hverify : (verify o p .malformed : Compiling m Unit) = pure () := by
      unfold verify
      rw [hv]
      rfl
    rw [ho, hverify, pure_bind]
  | true =>
    unfold compileProgram
    cases hc : p.check with
    | ok _ =>
      rw [verify_of_ok hc, verify_of_ok hc, pure_bind, pure_bind, pure_bind,
        optimize_of_ok (h hc)]
      rfl
    | error v =>
      rw [verify_of_error hc hv]
      simp

end Compilation

/-- **A program that passes the check passes it after sharing**, so a compilation with both checks
is the first check and then a compilation without checks. -/
theorem Program.check_share (p : Program) :
    (p.check = .ok () → p.share.program.check = .ok ()) ∧
      ∀ (m : Type → Type) [Monad m] [LawfulMonad m] [FileSystem m] (output : Path)
        (o : Compilation.Options),
        (Compilation.compileProgram p output o : Compilation.Compiling m Emission.Emitted) =
          Compilation.verify o p .malformed >>= fun _ =>
            Compilation.compileProgram p output { o with verify := false } := by
  have hshare (h : p.check = .ok ()) : p.share.program.check = .ok () :=
    p.share.program.check_ok_iff.mpr (Program.wellFormed_share (p.check_ok_iff.mp h))
  exact ⟨hshare, fun _ _ _ _ output o => Compilation.compileProgram_eq output o hshare⟩

theorem Program.check_share_twins :
    twins.check = .ok () ∧ twins.share.merged = 1 ∧ twins.share.program.check = .ok () :=
  ⟨rfl, rfl, (Program.check_share twins).1 rfl⟩

end AnfWasm
