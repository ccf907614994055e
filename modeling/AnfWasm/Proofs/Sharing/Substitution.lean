import AnfWasm.Proofs.Sharing.State

/-!
# Sharing does its replacements at once

The pass replaces operands while its list of replacements grows.  In a well-scoped program this is
the same as rewriting with the final list: an operand is used only after the fate of its binder is
settled, and the binders of recursive groups are never replaced (`Expr.share_eq`).  The list is
justified by the constructions that are available at each binding.
-/

namespace AnfWasm

namespace Sharing

/-- On those identifiers the replacements `F` are the ones that the state has. -/
def Agrees (F : Merges) (s : State) (xs : List Ident) : Prop :=
  ∀ n ∈ stamps xs, replacement? F n = replacement? s.merges n

namespace Agrees
variable {F : Merges} {Γ xs ys : List Ident} {K : List UInt32} {s s' s'' : State}

theorem sub (h : Agrees F s xs) (hys : ys ⊆ xs) : Agrees F s ys :=
  fun n hn => h n (List.map_subset _ hys hn)

theorem left (h : Agrees F s (xs ++ ys)) : Agrees F s xs := h.sub (List.subset_append_left _ _)

theorem right (h : Agrees F s (xs ++ ys)) : Agrees F s ys := h.sub (List.subset_append_right _ _)

theorem enter (hx : Agrees F s xs) (hΓ : Agrees F s Γ) : Agrees F s (xs.reverse ++ Γ) := by
  intro n hn
  rcases mem_stamps_reverse_append.mp hn with hn | hn
  · exact hx n hn
  · exact hΓ n hn

/-- what holds after the binders `news` are settled, if it is known of them -/
theorem step {news : List Ident} (h : Agrees F s Γ) (hp : Pass K news s s')
    (hnews : Agrees F s' news) : Agrees F s' Γ := by
  intro n hn
  by_cases hm : n ∈ stamps news
  · exact hnews n hm
  · rw [hp.kept hm]
    exact h n hn

/-- what held before other binders were settled -/
theorem back (h : Agrees F s'' xs) (hf : Fresh (stamps xs ++ K) ys)
    (hp : Pass (stamps xs ++ K) ys s' s'') : Agrees F s' xs := by
  intro n hn
  have hny : n ∉ stamps ys := fun hy => hf.2 n hy (List.mem_append_left _ hn)
  rw [h n hn, hp.kept hny]

/-- an operand in scope is replaced as it will be at the end -/
theorem standInImm_eq (h : Agrees F s Γ) {a : Imm} (ha : ∀ x, a = .id x → InScope Γ x) :
    standInImm s.merges a = standInImm F a := by
  cases a with
  | const c => rfl
  | id x =>
    have hx := h x.stamp (inScope_iff.mp (ha x rfl))
    show Imm.id ((replacement? s.merges x.stamp).getD x) = .id ((replacement? F x.stamp).getD x)
    rw [hx]

end Agrees

theorem mapOperands_congr {f g : Imm → Imm} {c : Comp} (h : ∀ a ∈ c.operands, f a = g a) :
    c.mapOperands f = c.mapOperands g := by
  cases c with
  | imm a | prim1 op a | tupleGet i a | boxNew a | unbox a =>
    simp [Comp.mapOperands, h a (List.mem_singleton_self a)]
  | branch a t e => simp [Comp.mapOperands, h a (List.mem_singleton_self a)]
  | prim2 op a b | boxSet a b =>
    simp [Comp.mapOperands, h a List.mem_cons_self, h b (List.mem_cons_of_mem _ List.mem_cons_self)]
  | adt t v args | tuple args | call f args | callForeign f args =>
    exact congrArg _ (List.map_congr_left h)
  | fail code => rfl

end Sharing

open Sharing

/-- the operands that the places of a part use are in scope -/
def ScopedAt (At : List Ident → Site → Prop) : Prop := ∀ Δ x, At Δ (.operand x) → InScope Δ x

theorem ScopedAt.left {At At' At'' : List Ident → Site → Prop} (h : ScopedAt At)
    (hat : ∀ Δ t, At Δ t ↔ At' Δ t ∨ At'' Δ t) : ScopedAt At' :=
  fun Δ x hx => h Δ x ((hat _ _).mpr (.inl hx))

theorem ScopedAt.right {At At' At'' : List Ident → Site → Prop} (h : ScopedAt At)
    (hat : ∀ Δ t, At Δ t ↔ At' Δ t ∨ At'' Δ t) : ScopedAt At'' :=
  fun Δ x hx => h Δ x ((hat _ _).mpr (.inr hx))

theorem ids_rewrites (F : Merges) (bs : List Binding) : ids (Binding.rewrites F bs) = ids bs := by
  induction bs with
  | nil => rfl
  | cons b bs ih =>
    obtain ⟨id, comp, span⟩ := b
    exact congrArg (id :: ·) ih

namespace Sharing
variable {F : Merges} {K : List UInt32} {Γ : List Ident} {s : State}

/-- no binding of a group is replaced -/
theorem group_kept {T : Available} {bs : List Binding}
    (h : Binding.Justified F .recursive T bs) : ∀ x ∈ ids bs, replacement? F x.stamp = none := by
  induction bs with
  | nil => exact fun _ hx => absurd hx List.not_mem_nil
  | cons b bs ih =>
    obtain ⟨id, comp, span⟩ := b
    exact List.forall_mem_cons.mpr ⟨h.2.1, ih h.2.2⟩

theorem share_eq_plain {c : Comp} (hc : c.arms = []) (hs : Settled K s)
    (hΓ : Agrees F s Γ) (hsc : ScopedAt (c.At Γ)) :
    (c.share s).1 = c.rewrite F ∧ c.Justified F s.table := by
  have hmap : c.mapOperands s.resolveImm = c.mapOperands (standInImm F) := by
    refine mapOperands_congr fun a ha => ?_
    rw [hs.resolveImm_eq]
    exact hΓ.standInImm_eq fun x hx => hsc Γ x (.operand (hx ▸ ha))
  rw [rewrite_plain hc, ← hmap]
  cases c with
  | branch a t e => exact absurd hc (List.cons_ne_nil _ _)
  | _ => exact ⟨rfl, trivial⟩

theorem prune_eq_letOf {bs : List Binding} {kind : LetKind} {body : Expr}
    (h : ∀ b ∈ bs, replacement? F b.id.stamp = replacement? s.merges b.id.stamp) :
    prune s kind bs body = letOf kind (bs.filter (isKept F)) body := by
  have hfilter : bs.filter (fun b => !s.isMerged b) = bs.filter (isKept F) := by
    refine List.filter_congr fun b hb => ?_
    show (!(replacement? s.merges b.id.stamp).isSome) = (replacement? F b.id.stamp).isNone
    rw [h b hb, Option.not_isSome]
  have hprune : prune s kind bs body = letOf kind (bs.filter fun b => !s.isMerged b) body := by
    unfold prune letOf
    cases bs.filter fun b => !s.isMerged b <;> rfl
  rw [hprune, hfilter]

/-- A new binding is replaced by what is available for its right-hand side. -/
theorem register_replacement {kind : LetKind} {fs : List Region} {T : Available} (hs : Settled K s)
    (ho : Opened kind fs T s) {b : Binding} (hb : b.id.stamp ∉ K) :
    replacement? (s.register b).merges b.id.stamp = available? kind s.table b.comp := by
  obtain ⟨keys, hf⟩ := ho.regions
  rw [register_merges hf]
  cases available? kind s.table b.comp with
  | none => exact hs.eq_none hb
  | some a => exact (replacement?_cons _ _ _).trans (if_pos rfl)

theorem register_merges_recursive {fs : List Region} {T : Available} (ho : Opened .recursive fs T s)
    (b : Binding) : (s.register b).merges = s.merges := by
  obtain ⟨keys, hf⟩ := ho.regions
  exact register_merges hf b

/-- What is known when the first of some bindings is registered. -/
structure Registered (F : Merges) (kind : LetKind) (fs : List Region) (T : Available)
    (K : List UInt32) (s s' : State) (id : Ident) (comp : Comp) (bs : List Binding) : Prop where
  opened : Opened kind fs T s'
  pass : Pass (stamps comp.binders ++ K) [id] (comp.share s).2 s'
  fresh : Fresh (id.stamp :: (stamps comp.binders ++ K)) (Binding.binders bs)
  inside : Agrees F (comp.share s).2 comp.binders
  own : Agrees F s' [id]
  rest : Agrees F (Binding.shares bs s').2 (Binding.binders bs)
  replaced : replacement? F id.stamp = available? kind s.table (comp.share s).1
  table : s'.table = extend kind s.table id (comp.share s).1

theorem Registered.rewritten {kind : LetKind} {fs : List Region} {T : Available} {s s' : State}
    {id : Ident} {comp : Comp} {bs : List Binding} (h : Registered F kind fs T K s s' id comp bs)
    (he : (comp.share s).1 = comp.rewrite F) :
    replacement? F id.stamp = available? kind s.table (comp.rewrite F) ∧
      s'.table = extend kind s.table id (comp.rewrite F) := by
  rw [← he]
  exact ⟨h.replaced, h.table⟩

theorem registered {kind : LetKind} {fs : List Region} {T : Available} {id : Ident} {comp : Comp}
    {span : Option Span} {bs : List Binding} (ho : Opened kind fs T s) (hs : Settled K s)
    (hf : Fresh K (Binding.binders (⟨id, comp, span⟩ :: bs)))
    (hd : Agrees F (Binding.shares (⟨id, comp, span⟩ :: bs) s).2
      (Binding.binders (⟨id, comp, span⟩ :: bs))) :
    Registered F kind fs T K s ((comp.share s).2.register ⟨id, (comp.share s).1, span⟩) id comp
      bs := by
  obtain ⟨hf1, hf2⟩ := hf.append
  obtain ⟨hid, hf3⟩ := hf2.cons
  obtain ⟨ht1, hr1, hp1⟩ := comp.share_pass hs hf1
  have ho1 := ho.congr ht1 hr1
  have ho2 := ho1.register ⟨id, (comp.share s).1, span⟩
  have hp2 := Pass.register hp1.settled ⟨id, (comp.share s).1, span⟩ hid
  obtain ⟨-, hp3⟩ := Binding.shares_pass bs ho2 hp2.settled hf3
  have htail : Agrees F (Binding.shares (⟨id, comp, span⟩ :: bs) s).2
      ([id] ++ Binding.binders bs) := hd.right
  have hown : Agrees F ((comp.share s).2.register ⟨id, (comp.share s).1, span⟩) [id] :=
    Agrees.back htail.left hf3 hp3
  obtain ⟨keys, hfr⟩ := ho1.regions
  exact {
    opened := ho2
    pass := hp2
    fresh := hf3
    inside := hd.left.back hf2 (hp2.trans hp3)
    own := hown
    rest := htail.right
    replaced := by
      rw [hown id.stamp List.mem_cons_self, register_replacement hp1.settled ho1 hid, ht1]
    table := by rw [register_table hfr, ht1] }

/-- The identifiers of a group are not replaced. -/
theorem shares_group_kept (bs : List Binding) {fs : List Region} {T : Available}
    (ho : Opened .recursive fs T s) (hs : Settled K s) (hf : Fresh K (Binding.binders bs))
    {n : UInt32} (hn : n ∉ stamps (rhsBinders bs)) :
    replacement? (Binding.shares bs s).2.merges n = replacement? s.merges n := by
  induction bs generalizing K s with
  | nil => rfl
  | cons b bs ih =>
    obtain ⟨id, comp, span⟩ := b
    obtain ⟨hf1, hf2⟩ := hf.append
    obtain ⟨hid, hf3⟩ := hf2.cons
    obtain ⟨ht1, hr1, hp1⟩ := comp.share_pass hs hf1
    have ho1 := ho.congr ht1 hr1
    have hp2 := Pass.register hp1.settled ⟨id, (comp.share s).1, span⟩ hid
    have hn' : n ∉ stamps comp.binders ∧ n ∉ stamps (rhsBinders bs) := by
      rwa [rhsBinders, List.flatMap_cons, stamps_append, List.mem_append, not_or] at hn
    refine (ih (ho1.register _) hp2.settled hf3 hn'.2).trans ?_
    rw [register_merges_recursive ho1, hp1.kept hn'.1]

/-- The binders of a group are in scope before they are settled, and they are not replaced. -/
theorem agrees_entry {bs : List Binding} {kind : LetKind} {fs : List Region} {T : Available}
    (hΓ : Agrees F s Γ) (ho : Opened kind fs T s) (hs : Settled K s)
    (hf : Fresh K (Binding.binders bs)) (hids : Agrees F (Binding.shares bs s).2 (ids bs)) :
    Agrees F s (kind.entry Γ bs) := by
  cases kind with
  | sequential => exact hΓ
  | recursive =>
    refine Agrees.enter (fun n hn => ?_) hΓ
    have hrhs : n ∉ stamps (rhsBinders bs) := fun h =>
      (hf.perm (binders_perm bs).symm).append.2.2 n h (List.mem_append_left _ hn)
    rw [hids n hn, shares_group_kept bs ho hs hf hrhs]

end Sharing

mutual

theorem Comp.share_eq (c : Comp) {F : Merges} {K : List UInt32} {Γ : List Ident} {s : State}
    (hs : Settled K s) (hf : Fresh K c.binders) (hΓ : Agrees F s Γ)
    (hd : Agrees F (c.share s).2 c.binders) (hsc : ScopedAt (c.At Γ)) :
    (c.share s).1 = c.rewrite F ∧ c.Justified F s.table := by
  match c with
  | .branch cond thenArm elseArm =>
    obtain ⟨hf1, hf2⟩ := hf.append
    obtain ⟨ht1, -, hp1⟩ := thenArm.share_pass hs hf1
    obtain ⟨-, -, hp2⟩ := elseArm.share_pass hp1.settled hf2
    have hd1 : Agrees F (thenArm.share s).2 thenArm.binders := hd.left.back hf2 hp2
    have hsc' := hsc.right fun _ _ => Comp.at_branch
    obtain ⟨he1, hj1⟩ := thenArm.share_eq hs hf1 hΓ hd1 (hsc'.left fun _ _ => Iff.rfl)
    obtain ⟨he2, hj2⟩ := elseArm.share_eq hp1.settled hf2 (hΓ.step hp1 hd1) hd.right
      (hsc'.right fun _ _ => Iff.rfl)
    have hcond : ∀ x, cond = .id x → InScope Γ x := by
      rintro x rfl
      exact hsc Γ x (.operand (List.mem_singleton_self _))
    refine ⟨?_, hj1, ht1 ▸ hj2⟩
    show Comp.branch (s.resolveImm cond) _ _ = .branch (standInImm F cond) _ _
    rw [he1, he2, hs.resolveImm_eq, hΓ.standInImm_eq hcond]
  | .imm _ | .prim1 _ _ | .prim2 _ _ _ | .adt _ _ _ | .tuple _ | .tupleGet _ _ | .boxNew _
  | .unbox _ | .boxSet _ _ | .call _ _ | .callForeign _ _ | .fail _ =>
    exact share_eq_plain rfl hs hΓ hsc

theorem Binding.shares_eq (bs : List Binding) {F : Merges} {K : List UInt32} {Γ : List Ident}
    {s : State} {kind : LetKind} {fs : List Region} {T : Available} (ho : Opened kind fs T s)
    (hs : Settled K s) (hf : Fresh K (Binding.binders bs)) (hΓ : Agrees F s Γ)
    (hd : Agrees F (Binding.shares bs s).2 (Binding.binders bs))
    (hsc : ScopedAt (Binding.At kind Γ bs)) :
    (Binding.shares bs s).1 = Binding.rewrites F bs ∧ Binding.Justified F kind s.table bs ∧
      (Binding.shares bs s).2.table = extendAll F kind s.table bs := by
  match bs with
  | [] => exact ⟨rfl, trivial, rfl⟩
  | ⟨id, comp, span⟩ :: bs =>
    have hr := registered ho hs hf hd
    obtain ⟨-, -, hp1⟩ := comp.share_pass hs hf.append.1
    obtain ⟨he1, hj1⟩ := comp.share_eq hs hf.append.1 hΓ hr.inside (hsc.left fun _ _ => Iff.rfl)
    have hΓ2 : Agrees F ((comp.share s).2.register ⟨id, (comp.share s).1, span⟩)
        (kind.reach Γ id) := by
      have h := (hΓ.step hp1 hr.inside).step hr.pass hr.own
      cases kind with
      | sequential => exact hr.own.enter h
      | recursive => exact h
    obtain ⟨he2, hj2, ht2⟩ := Binding.shares_eq bs hr.opened hr.pass.settled hr.fresh hΓ2 hr.rest
      (hsc.right fun _ _ => Iff.rfl)
    obtain ⟨hid, htab⟩ := hr.rewritten he1
    rw [htab] at hj2 ht2
    refine ⟨?_, ⟨hj1, hid, hj2⟩, ht2⟩
    show Binding.mk id (comp.share s).1 span :: (Binding.shares bs _).1 = _ :: _
    rw [he2, he1]

theorem Expr.share_eq (e : Expr) {F : Merges} {K : List UInt32} {Γ : List Ident} {s : State}
    (hs : Settled K s) (hf : Fresh K e.binders) (hΓ : Agrees F s Γ)
    (hd : Agrees F (e.share s).2 e.binders) (hsc : ScopedAt (e.At Γ)) :
    (e.share s).1 = e.rewrite F ∧ e.Justified F s.table := by
  match e with
  | .letIn kind bs body =>
    obtain ⟨hf1, hf2⟩ := hf.append
    have hs0 : Settled K (s.push kind) := hs.congr rfl fun _ h => h
    have ho0 := opened_push s kind
    obtain ⟨ho, hp1⟩ := Binding.shares_pass bs ho0 hs0 hf1
    obtain ⟨ht2, hr2, hp2⟩ := body.share_pass hp1.settled hf2
    obtain ⟨-, -, hm⟩ := (ho.congr ht2 hr2).pop
    have hd2 : Agrees F (body.share (Binding.shares bs (s.push kind)).2).2
        (Binding.binders bs ++ body.binders) := by
      intro n hn
      rw [hd n hn]
      exact congrArg (replacement? · n) hm
    have hd1 := hd2.left.back hf2 hp2
    have hids := hd1.sub (ids_subset_binders bs)
    have hΓ0 : Agrees F (s.push kind) Γ := hΓ
    obtain ⟨he1, hj1, ht1⟩ := Binding.shares_eq bs ho0 hs0 hf1
      (agrees_entry hΓ0 ho0 hs0 hf1 hids) hd1 (hsc.left fun _ _ => Expr.at_let)
    obtain ⟨he2, hj2⟩ := body.share_eq hp1.settled hf2 (hids.enter (hΓ0.step hp1 hd1)) hd2.right
      (hsc.right fun _ _ => Expr.at_let)
    refine ⟨?_, hj1, ht1 ▸ hj2⟩
    show prune _ kind (Binding.shares bs (s.push kind)).1 (body.share _).1 = letOf kind _ _
    rw [he1, he2]
    refine prune_eq_letOf fun b hb => hd b.id.stamp ?_
    have hb' : b.id ∈ ids bs := by
      rw [← ids_rewrites F bs]
      exact List.mem_map.mpr ⟨b, hb, rfl⟩
    exact mem_stamps.mpr ⟨b.id, List.mem_append_left _ (ids_subset_binders bs hb'), rfl⟩
  | .seq comp rest =>
    obtain ⟨hf1, hf2⟩ := hf.append
    obtain ⟨ht1, -, hp1⟩ := comp.share_pass hs hf1
    obtain ⟨-, -, hp2⟩ := rest.share_pass hp1.settled hf2
    have hd1 : Agrees F (comp.share s).2 comp.binders := hd.left.back hf2 hp2
    obtain ⟨he1, hj1⟩ := comp.share_eq hs hf1 hΓ hd1 (hsc.left fun _ _ => Expr.at_seq)
    obtain ⟨he2, hj2⟩ := rest.share_eq hp1.settled hf2 (hΓ.step hp1 hd1) hd.right
      (hsc.right fun _ _ => Expr.at_seq)
    refine ⟨?_, hj1, ht1 ▸ hj2⟩
    show Expr.seq (comp.share s).1 (rest.share (comp.share s).2).1 = .seq _ _
    rw [he1, he2]
  | .comp comp =>
    obtain ⟨he, hj⟩ := comp.share_eq hs hf hΓ hd fun Δ x hx => hsc Δ x (.comp hx)
    exact ⟨congrArg Expr.comp he, hj⟩

end

/-! ### functions and programs -/

def Func.Justified (F : Merges) (f : Func) : Prop :=
  (∀ n ∈ stamps f.params, replacement? F n = none) ∧ f.body.Justified F []

def Program.Justified (F : Merges) (p : Program) : Prop :=
  (∀ f ∈ p.functions, f.Justified F) ∧ p.body.Justified F []

theorem Func.share_pass (f : Func) {K : List UInt32} {s : State} (hs : Settled K s)
    (hf : Fresh K f.binders) :
    (f.share s).2.table = s.table ∧ Pass K f.binders s (f.share s).2 := by
  have hs' : Settled (stamps f.params ++ K) s := hs.mono fun _ => List.mem_append_right _
  obtain ⟨ht, -, hp⟩ := f.body.share_pass hs' hf.append.2
  have hparams : Pass K f.params s s := ⟨hs', fun _ => rfl⟩
  exact ⟨ht, hparams.trans hp⟩

theorem Func.share_eq (f : Func) {F : Merges} {K : List UInt32} {s : State} (hs : Settled K s)
    (ht : s.table = []) (hf : Fresh K f.binders) (hd : Agrees F (f.share s).2 f.binders)
    (hsc : ScopedAt f.At) : (f.share s).1 = f.rewrite F ∧ f.Justified F := by
  obtain ⟨hf1, hf2⟩ := hf.append
  have hs' : Settled (stamps f.params ++ K) s := hs.mono fun _ => List.mem_append_right _
  obtain ⟨-, -, hp⟩ := f.body.share_pass hs' hf2
  have hparams : Agrees F s f.params := hd.left.back hf2 hp
  have hΓ : Agrees F s f.params.reverse :=
    hparams.sub fun _ hx => List.mem_reverse.mp hx
  obtain ⟨he, hj⟩ := f.body.share_eq hs' hf2 hΓ hd.right hsc
  refine ⟨?_, fun n hn => ?_, ht ▸ hj⟩
  · show { f with body := (f.body.share s).1 } = f.rewrite F
    rw [he]
    rfl
  · rw [hparams n hn]
    exact hs.eq_none (hf1.2 n hn)

namespace Sharing
variable {F : Merges} {K : List UInt32} {s : State}

/-- the functions of a program, one after another -/
def shareAll (fs : List Func) : Share (List Func) := fs.mapM Func.share

theorem shareAll_cons (f : Func) (fs : List Func) (s : State) : shareAll (f :: fs) s =
    ((f.share s).1 :: (shareAll fs (f.share s).2).1, (shareAll fs (f.share s).2).2) := by
  unfold shareAll
  rw [List.mapM_cons]
  rfl

theorem shareAll_table (fs : List Func) (s : State) :
    (shareAll fs s).2.table = s.table ∧ (shareAll fs s).2.regions = s.regions := by
  induction fs generalizing s with
  | nil => exact ⟨rfl, rfl⟩
  | cons f fs ih =>
    obtain ⟨ht1, hf1⟩ := f.body.share_table s
    obtain ⟨ht2, hf2⟩ := ih (f.share s).2
    rw [shareAll_cons]
    exact ⟨ht2.trans ht1, hf2.trans hf1⟩

theorem shareProgram_table (p : Program) (s : State) :
    (shareProgram p s).2.table = s.table ∧ (shareProgram p s).2.regions = s.regions := by
  obtain ⟨ht1, hf1⟩ := shareAll_table p.functions s
  obtain ⟨ht2, hf2⟩ := p.body.share_table (shareAll p.functions s).2
  exact ⟨ht2.trans ht1, hf2.trans hf1⟩

theorem shareAll_pass (fs : List Func) (hs : Settled K s)
    (hf : Fresh K (fs.flatMap Func.binders)) : (shareAll fs s).2.table = s.table ∧
      Pass K (fs.flatMap Func.binders) s (shareAll fs s).2 := by
  refine ⟨(shareAll_table fs s).1, ?_⟩
  induction fs generalizing K s with
  | nil => exact .refl hs
  | cons f fs ih =>
    rw [List.flatMap_cons] at hf
    obtain ⟨hf1, hf2⟩ := hf.append
    obtain ⟨-, hp1⟩ := f.share_pass hs hf1
    rw [shareAll_cons, List.flatMap_cons]
    exact hp1.trans (ih hp1.settled hf2)

theorem shareAll_eq (fs : List Func) (hs : Settled K s) (ht : s.table = [])
    (hf : Fresh K (fs.flatMap Func.binders))
    (hd : Agrees F (shareAll fs s).2 (fs.flatMap Func.binders))
    (hsc : ∀ f ∈ fs, ScopedAt f.At) :
    (shareAll fs s).1 = fs.map (Func.rewrite F) ∧ ∀ f ∈ fs, f.Justified F := by
  induction fs generalizing K s with
  | nil => exact ⟨rfl, fun _ h => absurd h List.not_mem_nil⟩
  | cons f fs ih =>
    rw [List.flatMap_cons] at hf hd
    rw [shareAll_cons] at hd ⊢
    obtain ⟨hf1, hf2⟩ := hf.append
    obtain ⟨ht1, hp1⟩ := f.share_pass hs hf1
    obtain ⟨-, hp2⟩ := shareAll_pass fs hp1.settled hf2
    obtain ⟨hsc1, hsc2⟩ := List.forall_mem_cons.mp hsc
    obtain ⟨he1, hj1⟩ := f.share_eq hs ht hf1 (hd.left.back hf2 hp2) hsc1
    obtain ⟨he2, hj2⟩ := ih hp1.settled (ht1.trans ht) hf2 hd.right hsc2
    refine ⟨?_, List.forall_mem_cons.mpr ⟨hj1, hj2⟩⟩
    rw [List.map_cons, ← he1, ← he2]

end Sharing

/-- the replacements that sharing makes in the program, the latest first -/
def Program.replacements (p : Program) : Merges := p.share.merges.reverse

/-- **Sharing rewrites the program at once with the replacements that it reports.** -/
theorem Program.share_eq {p : Program} (h : p.WellFormed) :
    p.share.program = p.rewrite p.replacements ∧ p.Justified p.replacements := by
  have hf : Fresh [] (p.functions.flatMap Func.binders ++ p.body.binders) := by
    have := h.bound_once
    rw [Program.binders, List.append_assoc, stamps_append] at this
    exact ⟨(List.nodup_append.mp this).2.1, fun _ _ => List.not_mem_nil⟩
  obtain ⟨hf1, hf2⟩ := hf.append
  have hs := settled_start []
  obtain ⟨ht1, hp1⟩ := shareAll_pass p.functions hs hf1
  obtain ⟨-, -, hp2⟩ := p.body.share_pass hp1.settled hf2
  let s := (p.body.share (shareAll p.functions .start).2).2
  have hrep : p.replacements = s.merges := List.reverse_reverse s.merges
  have hd : ∀ xs, Agrees p.replacements s xs := fun xs n _ => by rw [hrep]
  obtain ⟨he1, hj1⟩ := shareAll_eq p.functions hs rfl hf1 ((hd _).back hf2 hp2)
    fun f hf Δ x hx => h.operand (.inl ⟨f, hf, hx⟩)
  have hd1 : Agrees p.replacements (shareAll p.functions .start).2 [] :=
    fun n hn => absurd hn List.not_mem_nil
  obtain ⟨he2, hj2⟩ := p.body.share_eq hp1.settled hf2 hd1 (hd _)
    fun Δ x hx => h.operand (.inr hx)
  refine ⟨?_, hj1, ?_⟩
  · show { p with
      functions := (shareAll p.functions .start).1,
      body := (p.body.share (shareAll p.functions .start).2).1 } = p.rewrite p.replacements
    rw [he1, he2]
    rfl
  · rw [ht1] at hj2
    exact hj2

/-- A function that builds a pair in an arm of a branch, twice, and a call of it. -/
def Sharing.twins : Program where
  source := none
  imports := []
  functions := [{
    id := ⟨"f", 0⟩
    params := [⟨"x", 1⟩]
    body := .letOne ⟨"r", 2⟩
      (.branch (.bool true)
        (.letOne ⟨"a", 3⟩ (.tuple [.id ⟨"x", 1⟩, .int 5])
          (.letOne ⟨"b", 4⟩ (.tuple [.id ⟨"x", 1⟩, .int 5])
            (.comp (.tuple [.id ⟨"a", 3⟩, .id ⟨"b", 4⟩]))))
        (.imm (.int 0)))
      (.comp (.tupleGet 1 (.id ⟨"r", 2⟩)))
    exported := false
    span := none }]
  body := .comp (.call ⟨"f", 0⟩ [.int 7])

example : twins.replacements = [(⟨"b", 4⟩, ⟨"a", 3⟩)] := rfl

end AnfWasm
