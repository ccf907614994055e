import AnfWasm.Proofs.Lowering.Faults
import AnfWasm.Proofs.Sharing.Scoping

/-!
# Sharing keeps the first fault

A recursive group mentions itself before sharing exactly if it does so after it, and the first
mention is the same one.  Its binders are not replaced and replace nothing.  A binding that goes may
mention the group, but then the construction that takes its place has mentioned it before, in the
same right-hand side: as long as nothing has mentioned the group, no construction of the table has
(`Within`).
-/

namespace AnfWasm
open Lowering Sharing

/-! ### keys -/

theorem filterMap_atom (args : List Imm) :
    (args.map Imm.atom).filterMap Atom.stamp? = stamps (args.filterMap Imm.id?) := by
  induction args with
  | nil => rfl
  | cons a args ih =>
    rw [List.map_cons]
    cases a with
    | id x => exact congrArg (x.stamp :: ·) ih
    | const c => exact ih

theorem Comp.isPlain_of_key? {c : Comp} {k : Key} (h : c.key? = some k) : c.IsPlain := by
  cases c with
  | call | callForeign | branch => exact absurd h (by simp [Comp.key?])
  | _ => trivial

theorem Comp.isPlain_rewrite {c : Comp} {F : Merges} : (c.rewrite F).IsPlain ↔ c.IsPlain := by
  cases c <;> exact Iff.rfl

theorem Comp.stamps_key {c : Comp} {k : Key} (h : c.key? = some k) :
    k.stamps = stamps c.mentions := by
  show _ = AnfWasm.stamps (c.read Step.use?)
  rw [(Comp.isPlain_of_key? h).read_use]
  cases c with
  | adt typeTag variant args | tuple args =>
    obtain rfl := Option.some.inj h
    exact filterMap_atom args
  | _ => exact absurd h (by simp [Comp.key?])

theorem filterMap_standInImm (F : Merges) (args : List Imm) :
    (args.map (standInImm F)).filterMap Imm.id? = (args.filterMap Imm.id?).map (standIn F) := by
  induction args with
  | nil => rfl
  | cons a args ih =>
    rw [List.map_cons]
    cases a with
    | id x => exact congrArg (standIn F x :: ·) ih
    | const c => exact ih

theorem Comp.operands_rewrite (F : Merges) (c : Comp) :
    (c.rewrite F).operands = c.operands.map (standInImm F) := by
  cases c <;> rfl

/-! ### stamps that are kept together -/

namespace Sharing

/-- What stands for an identifier in scope has a stamp with `P` if the identifier has one, and so
have all constructions of the table and their operands. -/
structure Within (F : Merges) (T : Available) (Γ : List Ident) (P : UInt32 → Prop) : Prop where
  standIn : ∀ x, InScope Γ x → P x.stamp → P (standIn F x).stamp
  table : ∀ k a, (k, a) ∈ T → P a.stamp ∧ ∀ n ∈ k.stamps, P n

namespace Within
variable {F : Merges} {T : Available} {Γ : List Ident} {P P' : UInt32 → Prop} {kind : LetKind}

theorem congr (h : Within F T Γ P) (hP : ∀ n, P n → P' n) (hP' : ∀ n, P' n → P n) :
    Within F T Γ P' := by
  have hsame : P = P' := by
    funext n
    exact propext ⟨hP n, hP' n⟩
  exact hsame ▸ h

/-- binders that are not replaced -/
theorem keepAll (h : Within F T Γ P) (xs : List Ident)
    (hxs : ∀ x ∈ xs, replacement? F x.stamp = none) (hP : ∀ n, P n → P' n)
    (hP' : ∀ n, P' n → P n ∨ n ∈ stamps xs) : Within F T (xs.reverse ++ Γ) P' where
  standIn y hy hy' := by
    by_cases hmem : y.stamp ∈ stamps xs
    · obtain ⟨x, hx, hxy⟩ := mem_stamps.mp hmem
      rw [standIn_of_none (hxs x hx) hxy]
      exact hy'
    · have hΓ := (mem_stamps_reverse_append.mp (inScope_iff.mp hy)).resolve_left hmem
      exact hP _ (h.standIn y (inScope_iff.mpr hΓ) ((hP' _ hy').resolve_right hmem))
  table k a ha := ⟨hP _ (h.table k a ha).1, fun n hn => hP n ((h.table k a ha).2 n hn)⟩

/-- a binder that is replaced -/
theorem drop (h : Within F T Γ P) {x a : Ident} {k : Key} (hx : replacement? F x.stamp = some a)
    (ha : (k, a) ∈ T) (hP : ∀ n, P n → P' n) (hP' : ∀ n, P' n → P n ∨ n = x.stamp) :
    Within F T (x :: Γ) P' where
  standIn y hy hy' := by
    by_cases hxy : x.stamp = y.stamp
    · rw [standIn_of_some hx hxy]
      exact hP _ (h.table k a ha).1
    · have hΓ := (inScope_cons.mp hy).resolve_left hxy
      exact hP _ (h.standIn y hΓ ((hP' _ hy').resolve_right (Ne.symm hxy)))
  table k a ha := ⟨hP _ (h.table k a ha).1, fun n hn => hP n ((h.table k a ha).2 n hn)⟩

theorem extend (h : Within F T Γ P) {x : Ident} {c : Comp} (hx : P x.stamp)
    (hc : ∀ k, c.key? = some k → ∀ n ∈ k.stamps, P n) :
    Within F (Sharing.extend kind T x c) Γ P where
  standIn := h.standIn
  table k a ha := by
    rcases extend_cases kind T x c with he | ⟨k', hk', -, -, -, he⟩
    · exact h.table k a (he ▸ ha)
    · rw [he] at ha
      rcases List.mem_cons.mp ha with ha | ha
      · obtain ⟨rfl, rfl⟩ := Prod.mk.inj ha
        exact ⟨hx, hc k hk'⟩
      · exact h.table k a ha

theorem entry {bs : List Binding} (h : Within F T Γ P) (hj : Binding.Justified F kind T bs)
    (hP : ∀ n, P n → P' n) (hP' : ∀ n, P' n → P n ∨ kind = .recursive ∧ n ∈ stamps (ids bs)) :
    Within F T (kind.entry Γ bs) P' := by
  cases kind with
  | sequential =>
    exact h.congr hP fun n hn => (hP' n hn).resolve_right (by simp)
  | recursive =>
    exact h.keepAll (ids bs) (group_kept hj) hP fun n hn => (hP' n hn).imp_right And.right

/-- the next binding of a let -/
theorem reach {x : Ident} {c : Comp} (h : Within F T Γ P)
    (hj : replacement? F x.stamp = available? kind T c)
    (hc : ∀ k, c.key? = some k → ∀ n ∈ k.stamps, P n) (hP : ∀ n, P n → P' n)
    (hP' : ∀ n, P' n → P n ∨ kind = .sequential ∧ n = x.stamp)
    (hx : kind = .sequential → P' x.stamp) :
    Within F (Sharing.extend kind T x c) (kind.reach Γ x) P' := by
  cases kind with
  | recursive =>
    exact h.congr hP fun n hn => (hP' n hn).resolve_right (by simp)
  | sequential =>
    have hnext : Within F T (x :: Γ) P' := by
      have hP' : ∀ n, P' n → P n ∨ n = x.stamp := fun n hn => (hP' n hn).imp_right And.right
      cases hr : replacement? F x.stamp with
      | none =>
        refine h.keepAll [x] ?_ hP fun n hn => (hP' n hn).imp_right fun he => ?_
        · exact List.forall_mem_singleton.mpr hr
        · exact he ▸ List.mem_singleton_self _
      | some a =>
        obtain ⟨k, -, hk⟩ := mem_of_available? (hj.symm.trans hr)
        exact h.drop hr hk hP hP'
    exact hnext.extend (hx rfl) fun k hk n hn => hP n (hc k hk n hn)

end Within

/-! ### the first mention of a group -/

/-- the first of the identifiers that is of the group -/
def firstOf (G : List UInt32) (xs : List Ident) : Option Ident :=
  xs.find? fun x => G.contains x.stamp

section
variable {G : List UInt32}

theorem firstOf_append (xs ys : List Ident) :
    firstOf G (xs ++ ys) = (firstOf G xs).or (firstOf G ys) := List.find?_append

theorem firstOf_eq_none {xs : List Ident} : firstOf G xs = none ↔ ∀ n ∈ stamps xs, n ∉ G := by
  rw [firstOf, List.find?_eq_none]
  simp [stamps]

theorem firstOf_eq_some {xs : List Ident} {y : Ident} (h : firstOf G xs = some y) :
    y.stamp ∈ stamps xs ∧ y.stamp ∈ G := by
  unfold firstOf at h
  have hgroup := List.find?_some h
  exact ⟨mem_stamps.mpr ⟨y, List.mem_of_find?_eq_some h, rfl⟩, List.contains_iff_mem.mp hgroup⟩

theorem firstOf_cons (x : Ident) (xs : List Ident) :
    firstOf G (x :: xs) = if x.stamp ∈ G then some x else firstOf G xs := by
  rw [firstOf, List.find?_cons]
  by_cases hx : x.stamp ∈ G
  · rw [if_pos hx, List.contains_iff_mem.mpr hx]
  · have hnot : G.contains x.stamp = false := by simpa using hx
    rw [if_neg hx, hnot]
    rfl

variable {F : Merges} {T : Available} {Γ : List Ident} (hG : ∀ n ∈ G, replacement? F n = none)
include hG

theorem firstOf_map_standIn (hw : Within F T Γ (· ∉ G)) {xs : List Ident}
    (hxs : ∀ x ∈ xs, InScope Γ x) : firstOf G (xs.map (standIn F)) = firstOf G xs := by
  induction xs with
  | nil => rfl
  | cons x xs ih =>
    obtain ⟨hx, hxs⟩ := List.forall_mem_cons.mp hxs
    rw [List.map_cons, firstOf_cons, firstOf_cons]
    by_cases hmem : x.stamp ∈ G
    · have hself : standIn F x = x := standIn_of_none (hG _ hmem) rfl
      rw [hself, if_pos hmem, if_pos hmem]
    · have hout : (standIn F x).stamp ∉ G := hw.standIn x hx hmem
      rw [if_neg hout, if_neg hmem, ih hxs]

theorem firstOf_operands (hw : Within F T Γ (· ∉ G)) {args : List Imm}
    (hargs : ∀ x, Imm.id x ∈ args → InScope Γ x) :
    firstOf G ((args.map (standInImm F)).filterMap Imm.id?) =
      firstOf G (args.filterMap Imm.id?) := by
  rw [filterMap_standInImm]
  exact firstOf_map_standIn hG hw fun x hx => hargs x (mem_filterMap_id?.mp hx)

theorem firstOf_named (hw : Within F T Γ (· ∉ G)) {c : Comp}
    (hargs : ∀ x, Imm.id x ∈ c.operands → InScope Γ x) :
    firstOf G (c.rewrite F).named = firstOf G c.named := by
  have hcallee : (c.rewrite F).callee? = c.callee? := by
    cases c <;> rfl
  rw [Comp.named, Comp.named, hcallee, Comp.operands_rewrite, firstOf_append, firstOf_append,
    firstOf_operands hG hw hargs]

end

end Sharing

theorem Expr.read_letOf (kind : LetKind) (bs : List Binding) (body : Expr) :
    (letOf kind bs body).read Step.use? = Binding.reads Step.use? bs ++ body.read Step.use? := by
  cases bs with
  | nil => rfl
  | cons b bs => exact selective_use.read_letIn kind (b :: bs) body

/-- a binding whose right-hand side mentions the group has nothing to take its place -/
theorem replacement?_of_mention {G : List UInt32} {F : Merges} {T : Available} {Γ : List Ident}
    {kind : LetKind} {x y : Ident} {c : Comp} (hw : Within F T Γ (· ∉ G))
    (hj : replacement? F x.stamp = available? kind T c)
    (h : firstOf G (c.read Step.use?) = some y) : replacement? F x.stamp = none := by
  cases hr : replacement? F x.stamp with
  | none => rfl
  | some a =>
    obtain ⟨k, hk, ha⟩ := mem_of_available? (hj.symm.trans hr)
    obtain ⟨hmem, hyG⟩ := firstOf_eq_some h
    have hclean := (hw.table k a ha).2
    rw [Comp.stamps_key hk] at hclean
    exact absurd hyG (hclean _ hmem)

mutual

theorem Comp.firstOf_rewrite (c : Comp) {G : List UInt32} {F : Merges} {T : Available}
    {Γ : List Ident} (hG : ∀ n ∈ G, replacement? F n = none) (hw : Within F T Γ (· ∉ G))
    (hj : c.Justified F T) (hsc : ScopedAt (c.At Γ)) (hb : ∀ n ∈ stamps c.binders, n ∉ G) :
    firstOf G ((c.rewrite F).read Step.use?) = firstOf G (c.read Step.use?) := by
  rw [Comp.read_use, Comp.read_use, firstOf_append, firstOf_append,
    firstOf_named hG hw fun x hx => hsc Γ x (.operand hx)]
  match c with
  | .branch cond thenArm elseArm =>
    rw [Comp.binders, stamps_append] at hb
    have h1 := thenArm.firstOf_rewrite hG hw hj.1 (fun Δ x hx => hsc Δ x (.thenArm hx))
      fun n hn => hb n (List.mem_append_left _ hn)
    have h2 := elseArm.firstOf_rewrite hG hw hj.2 (fun Δ x hx => hsc Δ x (.elseArm hx))
      fun n hn => hb n (List.mem_append_right _ hn)
    rw [Comp.rewrite, Comp.flatMap_arms, Comp.flatMap_arms, firstOf_append, firstOf_append, h1, h2]
  | .imm _ | .prim1 _ _ | .prim2 _ _ _ | .adt _ _ _ | .tuple _ | .tupleGet _ _ | .boxNew _
  | .unbox _ | .boxSet _ _ | .call _ _ | .callForeign _ _ | .fail _ => rfl

theorem Binding.firstOf_keptOf (bs : List Binding) {G : List UInt32} {F : Merges} {T : Available}
    {Γ : List Ident} {kind : LetKind} (hG : ∀ n ∈ G, replacement? F n = none)
    (hw : Within F T Γ (· ∉ G)) (hj : Binding.Justified F kind T bs)
    (hsc : ScopedAt (Binding.At kind Γ bs)) (hb : ∀ n ∈ stamps (Binding.binders bs), n ∉ G) :
    firstOf G (Binding.reads Step.use? (Binding.keptOf F bs)) =
        firstOf G (Binding.reads Step.use? bs) ∧
      (firstOf G (Binding.reads Step.use? bs) = none →
        Within F (extendAll F kind T bs) (kind.exit Γ bs) (· ∉ G)) := by
  match bs with
  | [] => exact ⟨rfl, fun _ => hw⟩
  | ⟨id, comp, span⟩ :: bs =>
    obtain ⟨hj1, hj2, hj3⟩ := hj
    rw [Binding.binders, stamps_append, stamps_cons] at hb
    have h1 := comp.firstOf_rewrite hG hw hj1 (fun Δ x hx => hsc Δ x (.inl hx))
      fun n hn => hb n (List.mem_append_left _ hn)
    cases hfirst : firstOf G (comp.read Step.use?) with
    | some y =>
      have hkept := replacement?_of_mention hw hj2 (h1.trans hfirst)
      rw [Binding.keptOf_cons_of_none hkept, selective_use.reads_cons, selective_use.reads_cons,
        firstOf_append, firstOf_append, h1, hfirst]
      exact ⟨rfl, fun h => absurd h (by simp)⟩
    | none =>
      have hclean : ∀ k, (comp.rewrite F).key? = some k → ∀ n ∈ k.stamps, n ∉ G := by
        intro k hk
        rw [Comp.stamps_key hk]
        exact firstOf_eq_none.mp (h1.trans hfirst)
      have hid : id.stamp ∉ G := hb _ (List.mem_append_right _ List.mem_cons_self)
      have hw' := hw.reach hj2 hclean (fun _ hn => hn) (fun _ hn => .inl hn) fun _ => hid
      obtain ⟨h2, hexit⟩ := Binding.firstOf_keptOf bs hG hw' hj3 (fun Δ x hx => hsc Δ x (.inr hx))
        fun n hn => hb n (List.mem_append_right _ (List.mem_cons_of_mem _ hn))
      rw [selective_use.reads_cons, firstOf_append, hfirst]
      refine ⟨?_, hexit⟩
      cases hr : replacement? F id.stamp with
      | none =>
        rw [Binding.keptOf_cons_of_none hr, selective_use.reads_cons, firstOf_append, h1, hfirst]
        exact h2
      | some a =>
        rw [Binding.keptOf_cons_of_some hr]
        exact h2

theorem Expr.firstOf_rewrite (e : Expr) {G : List UInt32} {F : Merges} {T : Available}
    {Γ : List Ident} (hG : ∀ n ∈ G, replacement? F n = none) (hw : Within F T Γ (· ∉ G))
    (hj : e.Justified F T) (hsc : ScopedAt (e.At Γ)) (hb : ∀ n ∈ stamps e.binders, n ∉ G) :
    firstOf G ((e.rewrite F).read Step.use?) = firstOf G (e.read Step.use?) := by
  match e with
  | .letIn kind bs body =>
    rw [Expr.binders, stamps_append] at hb
    have hentry := hw.entry hj.1 (fun _ hn => hn) fun _ hn => .inl hn
    obtain ⟨h1, hexit⟩ := Binding.firstOf_keptOf bs hG hentry hj.1
      (fun Δ x hx => hsc Δ x (Expr.at_let.mpr (.inl hx)))
      fun n hn => hb n (List.mem_append_left _ hn)
    have hlet : ((Expr.letIn kind bs body).rewrite F).read Step.use? =
        Binding.reads Step.use? (Binding.keptOf F bs) ++ (body.rewrite F).read Step.use? :=
      Expr.read_letOf _ _ _
    rw [hlet, selective_use.read_letIn, firstOf_append, firstOf_append, h1]
    cases hfirst : firstOf G (Binding.reads Step.use? bs) with
    | some y => rfl
    | none =>
      have hw' := hexit hfirst
      rw [LetKind.exit_entry] at hw'
      rw [body.firstOf_rewrite hG hw' hj.2 (fun Δ x hx => hsc Δ x (.body hx))
        fun n hn => hb n (List.mem_append_right _ hn)]
  | .seq comp rest =>
    rw [Expr.binders, stamps_append] at hb
    rw [Expr.rewrite, selective_use.read_seq, selective_use.read_seq, firstOf_append,
      firstOf_append, comp.firstOf_rewrite hG hw hj.1 (fun Δ x hx => hsc Δ x (.seqComp hx))
        fun n hn => hb n (List.mem_append_left _ hn),
      rest.firstOf_rewrite hG hw hj.2 (fun Δ x hx => hsc Δ x (.seqRest hx))
        fun n hn => hb n (List.mem_append_right _ hn)]
  | .comp comp =>
    rw [Expr.rewrite, selective_use.read_tail, selective_use.read_tail]
    exact comp.firstOf_rewrite hG hw hj (fun Δ x hx => hsc Δ x (.comp hx)) hb

end

/-! ### groups -/

section
variable {F : Merges} {T : Available} {Γ : List Ident} {bs : List Binding}

/-- the binders of a group are apart from what is in scope around it -/
theorem Sharing.Within.group (h : Within F T Γ (· ∈ stamps Γ))
    (hnew : ∀ n ∈ stamps (ids bs), n ∉ stamps Γ) :
    Within F T ((ids bs).reverse ++ Γ) (· ∉ stamps (ids bs)) where
  standIn x hx hnot := by
    have hΓ := (mem_stamps_reverse_append.mp (inScope_iff.mp hx)).resolve_left hnot
    exact fun hmem => hnew _ hmem (h.standIn x (inScope_iff.mpr hΓ) hΓ)
  table k a ha :=
    ⟨fun hmem => hnew _ hmem (h.table k a ha).1,
      fun n hn hmem => hnew _ hmem ((h.table k a ha).2 n hn)⟩

theorem Binding.justified_of_mem (hj : Binding.Justified F .recursive T bs) {b : Binding}
    (hb : b ∈ bs) : b.comp.Justified F T := by
  induction bs with
  | nil => exact absurd hb List.not_mem_nil
  | cons b' bs ih =>
    obtain ⟨id, comp, span⟩ := b'
    rcases List.mem_cons.mp hb with rfl | hb
    · exact hj.1
    · exact ih hj.2.2 hb

/-- the first mention is found right-hand side by right-hand side -/
theorem findSome?_keptOf {G : List UInt32} (hkept : ∀ x ∈ ids bs, replacement? F x.stamp = none)
    (h : ∀ b ∈ bs, firstOf G (b.comp.rewrite F).mentions = firstOf G b.comp.mentions) :
    (Binding.keptOf F bs).findSome? (fun b => (firstOf G b.comp.mentions).map fun x => (b.id, x)) =
      bs.findSome? fun b => (firstOf G b.comp.mentions).map fun x => (b.id, x) := by
  induction bs with
  | nil => rfl
  | cons b bs ih =>
    obtain ⟨id, comp, span⟩ := b
    obtain ⟨hid, hkept⟩ := List.forall_mem_cons.mp hkept
    obtain ⟨hcomp, h⟩ := List.forall_mem_cons.mp h
    rw [Binding.keptOf_cons_of_none hid, List.findSome?_cons, List.findSome?_cons, ih hkept h,
      hcomp]

theorem groupMention?_keptOf (hw : Within F T Γ (· ∈ stamps Γ))
    (hj : Binding.Justified F .recursive T bs)
    (hsc : ScopedAt (Binding.At .recursive ((ids bs).reverse ++ Γ) bs))
    (hf : Fresh (stamps Γ) (Binding.binders bs)) :
    groupMention? (Binding.keptOf F bs) = groupMention? bs := by
  have hkept := group_kept hj
  have hf' := hf.perm (binders_perm bs).symm
  have hgroup := hw.group hf'.append.1.2
  have hG : ∀ n ∈ stamps (ids bs), replacement? F n = none := by
    intro n hn
    obtain ⟨x, hx, rfl⟩ := mem_stamps.mp hn
    exact hkept x hx
  have hfirst : ∀ b ∈ bs, firstOf (stamps (ids bs)) (b.comp.rewrite F).mentions =
      firstOf (stamps (ids bs)) b.comp.mentions := by
    intro b hb
    refine b.comp.firstOf_rewrite hG hgroup (Binding.justified_of_mem hj hb)
      (fun Δ x hx => hsc Δ x (Binding.at_recursive.mpr ⟨b, hb, hx⟩)) fun n hn hmem => ?_
    have hrhs : n ∈ stamps (rhsBinders bs) := by
      obtain ⟨x, hx, rfl⟩ := mem_stamps.mp hn
      exact mem_stamps.mpr ⟨x, List.mem_flatMap.mpr ⟨b, hb, hx⟩, rfl⟩
    exact hf'.append.2.2 n hrhs (List.mem_append_left _ hmem)
  have hids : (Binding.keptOf F bs).map (fun b => b.id.stamp) = stamps (ids bs) := by
    rw [← ids_keptOf hkept, stamps, ids, List.map_map]
    rfl
  have hids' : bs.map (fun b => b.id.stamp) = stamps (ids bs) := by
    rw [stamps, ids, List.map_map]
    rfl
  unfold groupMention?
  rw [hids, hids']
  exact findSome?_keptOf hkept hfirst

theorem groupFault?_keptOf {kind : LetKind} (hw : Within F T Γ (· ∈ stamps Γ))
    (hj : Binding.Justified F kind T bs) (hsc : ScopedAt (Binding.At kind (kind.entry Γ bs) bs))
    (hf : Fresh (stamps Γ) (Binding.binders bs)) :
    groupFault? kind (Binding.keptOf F bs) = groupFault? kind bs := by
  cases kind with
  | sequential => rfl
  | recursive => exact groupMention?_keptOf hw hj hsc hf

end

theorem Expr.fault?_letOf (kind : LetKind) (bs : List Binding) (body : Expr) :
    (letOf kind bs body).fault? =
      (groupFault? kind bs).or ((Binding.fault? bs).or body.fault?) := by
  cases bs with
  | nil => cases kind <;> rfl
  | cons b bs => rfl

/-- the binders of a let that come into scope between its bindings -/
def LetKind.inner : LetKind → List Binding → List Ident
  | .sequential, bs => Binding.binders bs
  | .recursive, bs => rhsBinders bs

theorem fresh_entry {kind : LetKind} {Γ : List Ident} {bs : List Binding}
    (hf : Fresh (stamps Γ) (Binding.binders bs)) :
    Fresh (stamps (kind.entry Γ bs)) (kind.inner bs) := by
  cases kind with
  | sequential => exact hf
  | recursive =>
    refine (hf.perm (binders_perm bs).symm).append.2.mono fun n hn => ?_
    exact List.mem_append.mpr (mem_stamps_reverse_append.mp hn)

theorem fresh_reach {kind : LetKind} {Γ : List Ident} {id : Ident} {comp : Comp}
    {span : Option Span} {bs : List Binding}
    (hf : Fresh (stamps Γ) (kind.inner (⟨id, comp, span⟩ :: bs))) :
    Fresh (stamps Γ) comp.binders ∧ Fresh (stamps (kind.reach Γ id)) (kind.inner bs) := by
  cases kind with
  | sequential =>
    obtain ⟨hf1, hf2⟩ := Fresh.append hf
    refine ⟨hf1, hf2.cons.2.mono fun n hn => ?_⟩
    exact List.mem_cons.mpr ((List.mem_cons.mp hn).imp_right (List.mem_append_right _))
  | recursive =>
    obtain ⟨hf1, hf2⟩ := Fresh.append hf
    exact ⟨hf1, hf2.mono fun n hn => List.mem_append_right _ hn⟩

/-- a construction after sharing has its operands in scope before it -/
theorem Sharing.Within.key {F : Merges} {T : Available} {Γ : List Ident} {c : Comp} {k : Key}
    (h : Within F T Γ (· ∈ stamps Γ)) (hsc : ScopedAt (c.At Γ))
    (hk : (c.rewrite F).key? = some k) : ∀ n ∈ k.stamps, n ∈ stamps Γ := by
  have hc := Comp.isPlain_of_key? hk
  have hstamps : k.stamps = stamps ((c.rewrite F).read Step.use?) := Comp.stamps_key hk
  intro n hn
  rw [hstamps, hc.read_use, Comp.operands_rewrite, filterMap_standInImm] at hn
  obtain ⟨y, hy, rfl⟩ := mem_stamps.mp hn
  obtain ⟨x, hx, rfl⟩ := List.mem_map.mp hy
  have hΓ := hsc Γ x (.operand (mem_filterMap_id?.mp hx))
  exact h.standIn x hΓ (inScope_iff.mp hΓ)

mutual

theorem Comp.fault?_rewrite (c : Comp) {F : Merges} {T : Available} {Γ : List Ident}
    (hw : Within F T Γ (· ∈ stamps Γ)) (hj : c.Justified F T) (hsc : ScopedAt (c.At Γ))
    (hf : Fresh (stamps Γ) c.binders) : (c.rewrite F).fault? = c.fault? := by
  match c with
  | .branch cond thenArm elseArm =>
    obtain ⟨hf1, hf2⟩ := Fresh.append hf
    rw [Comp.rewrite, Comp.fault?, Comp.fault?,
      thenArm.fault?_rewrite hw hj.1 (fun Δ x hx => hsc Δ x (.thenArm hx)) hf1,
      elseArm.fault?_rewrite hw hj.2 (fun Δ x hx => hsc Δ x (.elseArm hx))
        (hf2.mono fun _ => List.mem_append_right _)]
  | .imm _ | .prim1 _ _ | .prim2 _ _ _ | .adt _ _ _ | .tuple _ | .tupleGet _ _ | .boxNew _
  | .unbox _ | .boxSet _ _ | .call _ _ | .callForeign _ _ | .fail _ => rfl

theorem Binding.fault?_keptOf (bs : List Binding) {F : Merges} {T : Available} {Γ : List Ident}
    {kind : LetKind} (hw : Within F T Γ (· ∈ stamps Γ)) (hj : Binding.Justified F kind T bs)
    (hsc : ScopedAt (Binding.At kind Γ bs)) (hf : Fresh (stamps Γ) (kind.inner bs)) :
    Binding.fault? (Binding.keptOf F bs) = Binding.fault? bs ∧
      Within F (extendAll F kind T bs) (kind.exit Γ bs) (· ∈ stamps (kind.exit Γ bs)) := by
  match bs with
  | [] => exact ⟨rfl, hw⟩
  | ⟨id, comp, span⟩ :: bs =>
    obtain ⟨hj1, hj2, hj3⟩ := hj
    obtain ⟨hf1, hf2⟩ := fresh_reach hf
    have hsc1 : ScopedAt (comp.At Γ) := fun Δ x hx => hsc Δ x (.inl hx)
    have h1 := comp.fault?_rewrite hw hj1 hsc1 hf1
    have hw' : Within F (Sharing.extend kind T id (comp.rewrite F)) (kind.reach Γ id)
        (· ∈ stamps (kind.reach Γ id)) := by
      refine hw.reach hj2 (fun k hk => hw.key hsc1 hk) (fun n hn => ?_) (fun n hn => ?_)
        fun hk => ?_
      · cases kind with
        | sequential => exact List.mem_cons_of_mem _ hn
        | recursive => exact hn
      · cases kind with
        | sequential => exact (List.mem_cons.mp hn).symm.imp_right fun h => ⟨rfl, h⟩
        | recursive => exact .inl hn
      · subst hk
        exact List.mem_cons_self
    obtain ⟨h2, hexit⟩ := Binding.fault?_keptOf bs hw' hj3 (fun Δ x hx => hsc Δ x (.inr hx)) hf2
    refine ⟨?_, hexit⟩
    cases hr : replacement? F id.stamp with
    | none => rw [Binding.keptOf_cons_of_none hr, Binding.fault?, Binding.fault?, h1, h2]
    | some a =>
      obtain ⟨k, hk, -⟩ := mem_of_available? (hj2.symm.trans hr)
      rw [Binding.keptOf_cons_of_some hr, Binding.fault?,
        Comp.fault?_eq_none (Comp.isPlain_rewrite.mp (Comp.isPlain_of_key? hk)).arms, h2]
      rfl

theorem Expr.fault?_rewrite (e : Expr) {F : Merges} {T : Available} {Γ : List Ident}
    (hw : Within F T Γ (· ∈ stamps Γ)) (hj : e.Justified F T) (hsc : ScopedAt (e.At Γ))
    (hf : Fresh (stamps Γ) e.binders) : (e.rewrite F).fault? = e.fault? := by
  match e with
  | .letIn kind bs body =>
    obtain ⟨hf1, hf2⟩ := Fresh.append hf
    have hsc1 : ScopedAt (Binding.At kind (kind.entry Γ bs) bs) :=
      fun Δ x hx => hsc Δ x (Expr.at_let.mpr (.inl hx))
    have hentry : Within F T (kind.entry Γ bs) (· ∈ stamps (kind.entry Γ bs)) := by
      refine hw.entry hj.1 (fun n hn => ?_) fun n hn => ?_
      · cases kind with
        | sequential => exact hn
        | recursive => exact mem_stamps_reverse_append.mpr (.inr hn)
      · cases kind with
        | sequential => exact .inl hn
        | recursive => exact (mem_stamps_reverse_append.mp hn).symm.imp_right fun h => ⟨rfl, h⟩
    obtain ⟨h1, hexit⟩ := Binding.fault?_keptOf bs hentry hj.1 hsc1 (fresh_entry hf1)
    rw [LetKind.exit_entry] at hexit
    have h2 := body.fault?_rewrite hexit hj.2 (fun Δ x hx => hsc Δ x (.body hx)) <|
      hf2.mono fun n hn => List.mem_append.mpr <|
        (mem_stamps_reverse_append.mp hn).imp_left fun hn =>
          List.map_subset _ (ids_subset_binders bs) hn
    have hlet : ((Expr.letIn kind bs body).rewrite F).fault? =
        (groupFault? kind (Binding.keptOf F bs)).or
          ((Binding.fault? (Binding.keptOf F bs)).or (body.rewrite F).fault?) :=
      Expr.fault?_letOf _ _ _
    rw [hlet, groupFault?_keptOf hw hj.1 hsc1 hf1, h1, h2, Expr.fault?]
  | .seq comp rest =>
    obtain ⟨hf1, hf2⟩ := Fresh.append hf
    rw [Expr.rewrite, Expr.fault?, Expr.fault?,
      comp.fault?_rewrite hw hj.1 (fun Δ x hx => hsc Δ x (.seqComp hx)) hf1,
      rest.fault?_rewrite hw hj.2 (fun Δ x hx => hsc Δ x (.seqRest hx))
        (hf2.mono fun _ => List.mem_append_right _)]
  | .comp comp =>
    rw [Expr.rewrite, Expr.fault?, Expr.fault?]
    exact comp.fault?_rewrite hw hj (fun Δ x hx => hsc Δ x (.comp hx)) hf

end

/-! ### programs -/

theorem Func.fault?_rewrite {f : Func} {F : Merges} (hj : f.Justified F) (hsc : ScopedAt f.At)
    (hf : Fresh [] f.binders) : (f.rewrite F).body.fault? = f.body.fault? := by
  have hw : Within F [] f.params.reverse (· ∈ stamps f.params.reverse) := by
    refine ⟨fun x hx hmem => ?_, fun k a ha => absurd ha List.not_mem_nil⟩
    have hparam : x.stamp ∈ stamps f.params := by
      rwa [stamps, List.map_reverse, List.mem_reverse] at hmem
    rwa [standIn_of_none (hj.1 _ hparam) rfl]
  refine f.body.fault?_rewrite hw hj.2 hsc (hf.append.2.mono fun n hn => ?_)
  rw [stamps, List.map_reverse, List.mem_reverse] at hn
  exact List.mem_append_left _ hn

/-- **Sharing keeps the first fault of every function and of the entry.** -/
theorem Program.fault?_share {p : Program} (h : p.WellFormed) :
    (∀ f ∈ p.functions, (f.rewrite p.replacements).body.fault? = f.body.fault?) ∧
      (p.body.rewrite p.replacements).fault? = p.body.fault? := by
  obtain ⟨-, hfs, hbody⟩ := Program.share_eq h
  have hw : Within p.replacements [] [] (· ∈ stamps []) :=
    ⟨fun _ _ hmem => absurd hmem List.not_mem_nil, fun _ _ ha => absurd ha List.not_mem_nil⟩
  constructor
  · intro f hf
    exact Func.fault?_rewrite (hfs f hf) (fun Δ x hx => h.operand (.inl ⟨f, hf, hx⟩))
      (h.fresh_func hf)
  · exact p.body.fault?_rewrite hw hbody (fun Δ x hx => h.operand (.inr hx)) h.fresh_body

end AnfWasm
