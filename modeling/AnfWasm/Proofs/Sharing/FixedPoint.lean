import AnfWasm.Proofs.Sharing.Repeats

/-!
# Nothing is left to share

A rewritten expression is justified without any replacement (`Expr.justified_rewrite`): a binding
that goes adds nothing to the table, so the table at a binding that stays is the one that the first
run had there, although the lets around it may be gone.  Such an expression has no construction
twice in one scope, and a second run passes over it and changes nothing (`Expr.share_self`).
-/

namespace AnfWasm
open Sharing

/-! ### lets with bindings -/

mutual

def Comp.NoEmptyLet : Comp → Prop
  | .branch _ thenArm elseArm => thenArm.NoEmptyLet ∧ elseArm.NoEmptyLet
  | _ => True

def Binding.NoEmptyLet : List Binding → Prop
  | [] => True
  | ⟨_, comp, _⟩ :: bs => comp.NoEmptyLet ∧ Binding.NoEmptyLet bs

/-- every let has a binding -/
def Expr.NoEmptyLet : Expr → Prop
  | .letIn _ bindings body => bindings ≠ [] ∧ Binding.NoEmptyLet bindings ∧ body.NoEmptyLet
  | .seq comp rest => comp.NoEmptyLet ∧ rest.NoEmptyLet
  | .comp comp => comp.NoEmptyLet

end

def Program.NoEmptyLet (p : Program) : Prop :=
  (∀ f ∈ p.functions, f.body.NoEmptyLet) ∧ p.body.NoEmptyLet

theorem noEmptyLet_letOf {kind : LetKind} {bs : List Binding} {body : Expr}
    (hbs : Binding.NoEmptyLet bs) (hbody : body.NoEmptyLet) : (letOf kind bs body).NoEmptyLet := by
  cases bs with
  | nil => exact hbody
  | cons b bs => exact ⟨List.cons_ne_nil _ _, hbs, hbody⟩

mutual

theorem Comp.noEmptyLet_rewrite (F : Merges) (c : Comp) : (c.rewrite F).NoEmptyLet := by
  match c with
  | .branch cond thenArm elseArm =>
    exact ⟨thenArm.noEmptyLet_rewrite F, elseArm.noEmptyLet_rewrite F⟩
  | .imm _ | .prim1 _ _ | .prim2 _ _ _ | .adt _ _ _ | .tuple _ | .tupleGet _ _ | .boxNew _
  | .unbox _ | .boxSet _ _ | .call _ _ | .callForeign _ _ | .fail _ => trivial

theorem Binding.noEmptyLet_keptOf (F : Merges) (bs : List Binding) :
    Binding.NoEmptyLet (Binding.keptOf F bs) := by
  match bs with
  | [] => trivial
  | ⟨id, comp, span⟩ :: bs =>
    cases h : replacement? F id.stamp with
    | none =>
      rw [Binding.keptOf_cons_of_none h]
      exact ⟨comp.noEmptyLet_rewrite F, Binding.noEmptyLet_keptOf F bs⟩
    | some a =>
      rw [Binding.keptOf_cons_of_some h]
      exact Binding.noEmptyLet_keptOf F bs

theorem Expr.noEmptyLet_rewrite (F : Merges) (e : Expr) : (e.rewrite F).NoEmptyLet := by
  match e with
  | .letIn kind bs body =>
    exact noEmptyLet_letOf (Binding.noEmptyLet_keptOf F bs) (body.noEmptyLet_rewrite F)
  | .seq comp rest => exact ⟨comp.noEmptyLet_rewrite F, rest.noEmptyLet_rewrite F⟩
  | .comp comp => exact comp.noEmptyLet_rewrite F

end

/-! ### no replacements -/

theorem standInImm_nil (a : Imm) : standInImm [] a = a := by
  cases a <;> rfl

theorem Comp.mapOperands_self {f : Imm → Imm} (hf : ∀ a, f a = a) (c : Comp) :
    c.mapOperands f = c := by
  obtain rfl : f = id := funext hf
  cases c <;> simp [Comp.mapOperands]

theorem Comp.key?_rewrite_nil (c : Comp) : (c.rewrite []).key? = c.key? := by
  cases c with
  | branch cond thenArm elseArm => rfl
  | _ => rw [rewrite_plain rfl, Comp.mapOperands_self standInImm_nil]

section
variable {kind : LetKind} {T : Available}

/-- only the key of a right-hand side matters for what is available for it -/
theorem available?_rewrite_nil (c : Comp) :
    available? kind T (c.rewrite []) = available? kind T c := by
  unfold available?
  rw [c.key?_rewrite_nil]

theorem extend_rewrite_nil (x : Ident) (c : Comp) :
    extend kind T x (c.rewrite []) = extend kind T x c := by
  unfold extend
  rw [c.key?_rewrite_nil]

end

theorem Expr.justified_letOf {F : Merges} {T : Available} {kind : LetKind} {bs : List Binding}
    {body : Expr} (hbs : Binding.Justified F kind T bs)
    (hbody : body.Justified F (extendAll F kind T bs)) : (letOf kind bs body).Justified F T := by
  cases bs with
  | nil => exact hbody
  | cons b bs => exact ⟨hbs, hbody⟩

mutual

theorem Comp.justified_rewrite (c : Comp) {F : Merges} {T : Available} (h : c.Justified F T) :
    (c.rewrite F).Justified [] T := by
  match c with
  | .branch cond thenArm elseArm =>
    exact ⟨thenArm.justified_rewrite h.1, elseArm.justified_rewrite h.2⟩
  | .imm _ | .prim1 _ _ | .prim2 _ _ _ | .adt _ _ _ | .tuple _ | .tupleGet _ _ | .boxNew _
  | .unbox _ | .boxSet _ _ | .call _ _ | .callForeign _ _ | .fail _ => trivial

theorem Binding.justified_keptOf (bs : List Binding) {F : Merges} {kind : LetKind} {T : Available}
    (h : Binding.Justified F kind T bs) : Binding.Justified [] kind T (Binding.keptOf F bs) ∧
      extendAll [] kind T (Binding.keptOf F bs) = extendAll F kind T bs := by
  match bs with
  | [] => exact ⟨trivial, rfl⟩
  | ⟨id, comp, span⟩ :: bs =>
    obtain ⟨hcomp, hid, hbs⟩ := h
    obtain ⟨hj, he⟩ := Binding.justified_keptOf bs hbs
    cases hr : replacement? F id.stamp with
    | none =>
      rw [Binding.keptOf_cons_of_none hr]
      refine ⟨⟨comp.justified_rewrite hcomp, ?_, ?_⟩, ?_⟩
      · rw [available?_rewrite_nil, ← hid, hr]
        rfl
      · rw [extend_rewrite_nil]
        exact hj
      · rw [extendAll, extend_rewrite_nil]
        exact he
    | some a =>
      -- the table is the same without the binding
      have hsame : extend kind T id (comp.rewrite F) = T :=
        extend_of_available (hid.symm.trans hr)
      rw [hsame] at hj he
      rw [Binding.keptOf_cons_of_some hr, extendAll, hsame]
      exact ⟨hj, he⟩

theorem Expr.justified_rewrite (e : Expr) {F : Merges} {T : Available} (h : e.Justified F T) :
    (e.rewrite F).Justified [] T := by
  match e with
  | .letIn kind bs body =>
    obtain ⟨hj, he⟩ := Binding.justified_keptOf bs h.1
    refine Expr.justified_letOf hj ?_
    show (body.rewrite F).Justified [] (extendAll [] kind T (Binding.keptOf F bs))
    rw [he]
    exact body.justified_rewrite h.2
  | .seq comp rest => exact ⟨comp.justified_rewrite h.1, rest.justified_rewrite h.2⟩
  | .comp comp => exact comp.justified_rewrite h

end

/-! ### a run that changes nothing -/

namespace Sharing
variable {s : State}

theorem resolveImm_self (hm : s.merges = []) (a : Imm) : s.resolveImm a = a := by
  cases a with
  | const c => rfl
  | id x =>
    show Imm.id (follow s.merges s.merges.length x) = .id x
    rw [hm]
    rfl

theorem prune_self {kind : LetKind} {bs : List Binding} {body : Expr} (hm : s.merges = [])
    (hbs : bs ≠ []) : prune s kind bs body = .letIn kind bs body := by
  have h : ∀ b ∈ bs, replacement? [] b.id.stamp = replacement? s.merges b.id.stamp := by
    intro b _
    rw [hm]
  have hall : bs.filter (isKept []) = bs := List.filter_eq_self.mpr fun _ _ => rfl
  rw [prune_eq_letOf h, hall]
  cases bs with
  | nil => exact absurd rfl hbs
  | cons b bs => rfl

theorem share_self_plain {c : Comp} (hc : c.arms = []) (hm : s.merges = []) :
    c.share s = (c, s) := by
  have hmap : c.mapOperands s.resolveImm = c := c.mapOperands_self (resolveImm_self hm)
  cases c with
  | branch a t e => exact absurd hc (List.cons_ne_nil _ _)
  | _ => exact congrArg (·, s) hmap

end Sharing

mutual

theorem Comp.share_self (c : Comp) {s : State} (hm : s.merges = []) (hj : c.Justified [] s.table)
    (hn : c.NoEmptyLet) : c.share s = (c, s) := by
  match c with
  | .branch cond thenArm elseArm =>
    have hthen := thenArm.share_self hm hj.1 hn.1
    have helse := elseArm.share_self hm hj.2 hn.2
    show (Comp.branch (s.resolveImm cond) (thenArm.share s).1 (elseArm.share (thenArm.share s).2).1,
      (elseArm.share (thenArm.share s).2).2) = _
    rw [hthen, helse, resolveImm_self hm]
  | .imm _ | .prim1 _ _ | .prim2 _ _ _ | .adt _ _ _ | .tuple _ | .tupleGet _ _ | .boxNew _
  | .unbox _ | .boxSet _ _ | .call _ _ | .callForeign _ _ | .fail _ =>
    exact share_self_plain rfl hm

theorem Binding.shares_self (bs : List Binding) {s : State} {kind : LetKind} {fs : List Region}
    {T : Available} (ho : Opened kind fs T s) (hm : s.merges = [])
    (hj : Binding.Justified [] kind s.table bs) (hn : Binding.NoEmptyLet bs) :
    (Binding.shares bs s).1 = bs ∧ (Binding.shares bs s).2.merges = [] ∧
      (Binding.shares bs s).2.table = extendAll [] kind s.table bs ∧
      Opened kind fs T (Binding.shares bs s).2 := by
  match bs with
  | [] => exact ⟨rfl, hm, rfl, ho⟩
  | ⟨id, comp, span⟩ :: bs =>
    obtain ⟨hcomp, hid, hbs⟩ := hj
    have hc := comp.share_self hm hcomp hn.1
    obtain ⟨keys, hf⟩ := ho.regions
    have hnone : available? kind s.table comp = none := by
      rw [← available?_rewrite_nil, ← hid]
      rfl
    have hmerges : (s.register ⟨id, comp, span⟩).merges = [] := by
      rw [register_merges hf, hnone]
      exact hm
    have htable : (s.register ⟨id, comp, span⟩).table =
        extend kind s.table id (comp.rewrite []) := by
      rw [register_table hf, extend_rewrite_nil]
    rw [← htable] at hbs
    obtain ⟨h1, h2, h3, h4⟩ :=
      Binding.shares_self bs (ho.register ⟨id, comp, span⟩) hmerges hbs hn.2
    have hshares : Binding.shares (⟨id, comp, span⟩ :: bs) s =
        (⟨id, comp, span⟩ :: (Binding.shares bs (s.register ⟨id, comp, span⟩)).1,
          (Binding.shares bs (s.register ⟨id, comp, span⟩)).2) := by
      show (Binding.mk id (comp.share s).1 span :: (Binding.shares bs _).1, _) = _
      rw [hc]
    rw [hshares, h1, extendAll, ← htable]
    exact ⟨rfl, h2, h3, h4⟩

theorem Expr.share_self (e : Expr) {s : State} (hm : s.merges = []) (hj : e.Justified [] s.table)
    (hn : e.NoEmptyLet) : e.share s = (e, s) := by
  match e with
  | .letIn kind bs body =>
    obtain ⟨hne, hnbs, hnbody⟩ := hn
    obtain ⟨h1, h2, h3, ho⟩ := Binding.shares_self bs (opened_push s kind) hm hj.1 hnbs
    have hbody := body.share_self h2 (h3 ▸ hj.2) hnbody
    obtain ⟨htable, hregions, hmerges⟩ := ho.pop
    have hpop : (Binding.shares bs (s.push kind)).2.pop = s := by
      generalize (Binding.shares bs (s.push kind)).2.pop = t at htable hregions hmerges
      obtain ⟨table, merges, regions⟩ := t
      obtain rfl : table = s.table := htable
      obtain rfl : regions = s.regions := hregions
      obtain rfl : merges = s.merges := hmerges.trans (h2.trans hm.symm)
      rfl
    show (prune _ kind (Binding.shares bs (s.push kind)).1 (body.share _).1, (body.share _).2.pop) =
      _
    rw [hbody, h1, hpop, prune_self hm hne]
  | .seq comp rest =>
    have hcomp := comp.share_self hm hj.1 hn.1
    have hrest := rest.share_self hm hj.2 hn.2
    show (Expr.seq (comp.share s).1 (rest.share (comp.share s).2).1,
      (rest.share (comp.share s).2).2) = _
    rw [hcomp, hrest]
  | .comp comp =>
    have hcomp := comp.share_self hm hj hn
    show (Expr.comp (comp.share s).1, (comp.share s).2) = _
    rw [hcomp]

end

/-! ### programs -/

namespace Sharing

theorem shareAll_self {fs : List Func} (hj : ∀ f ∈ fs, f.body.Justified [] [])
    (hn : ∀ f ∈ fs, f.body.NoEmptyLet) : shareAll fs .start = (fs, .start) := by
  induction fs with
  | nil => rfl
  | cons f fs ih =>
    obtain ⟨hjf, hjfs⟩ := List.forall_mem_cons.mp hj
    obtain ⟨hnf, hnfs⟩ := List.forall_mem_cons.mp hn
    have hf : f.share .start = (f, .start) := by
      show ({ f with body := (f.body.share .start).1 }, (f.body.share .start).2) = _
      rw [f.body.share_self rfl hjf hnf]
    rw [shareAll_cons, hf, ih hjfs hnfs]

end Sharing

namespace Program
variable {p : Program}

theorem share_self (hj : p.Justified []) (hn : p.NoEmptyLet) : p.share = ⟨p, []⟩ := by
  have hfuns := shareAll_self (fun f hf => (hj.1 f hf).2) hn.1
  have hbody := p.body.share_self (s := .start) rfl hj.2 hn.2
  show Outcome.mk { p with
      functions := (shareAll p.functions .start).1
      body := (p.body.share (shareAll p.functions .start).2).1 }
    (p.body.share (shareAll p.functions .start).2).2.merges.reverse = _
  rw [hfuns, hbody]
  rfl

theorem justified_rewrite {F : Merges} (h : p.Justified F) : (p.rewrite F).Justified [] := by
  refine ⟨fun g hg => ?_, p.body.justified_rewrite h.2⟩
  obtain ⟨f, hf, rfl⟩ := List.mem_map.mp hg
  exact ⟨fun _ _ => rfl, f.body.justified_rewrite (h.1 f hf).2⟩

theorem noEmptyLet_rewrite (p : Program) (F : Merges) : (p.rewrite F).NoEmptyLet := by
  refine ⟨fun g hg => ?_, p.body.noEmptyLet_rewrite F⟩
  obtain ⟨f, -, rfl⟩ := List.mem_map.mp hg
  exact f.body.noEmptyLet_rewrite F

/-- no construction in scope is available a second time -/
theorem alike_eq_false_of_justified (hj : p.Justified []) {Δ : List Def} {d d' : Def}
    (hd : p.Defines Δ d) (hs : d.kind = .sequential) (hc : d.comp.IsConstruction) (hd' : d' ∈ Δ)
    (hs' : d'.kind = .sequential) : d.comp.alike d'.comp = false := by
  obtain ⟨T, hT, hnone⟩ := decided hj hd
  obtain ⟨k, hk⟩ := Comp.exists_key? hc
  refine Bool.eq_false_iff.mpr fun halike => ?_
  have hk' : (d'.comp.rewrite []).key? = some k := by
    rw [Comp.key?_rewrite_nil, ← (Comp.alike_iff_key? hc).mp halike, hk]
  have hsome := hT.complete hd' hs' hk'
  rw [hs, available?_rewrite_nil] at hnone
  have hlookup : T.lookup k = none := by
    have hbind : d.comp.key?.bind (fun k => T.lookup k) = none := hnone.symm
    rwa [hk] at hbind
  rw [hlookup] at hsome
  exact absurd hsome (by simp)

/-- **Sharing leaves nothing to share.**  In the result of sharing every let has a binding, no
construction of a sequential let has an equal one in scope, and sharing again merges nothing and
returns the same program. -/
theorem share_fixed_point (h : p.check = .ok ()) :
    p.share.program.NoEmptyLet ∧
    (∀ Δ d d', p.share.program.Defines Δ d → d' ∈ Δ → d.kind = .sequential →
      d'.kind = .sequential → d.comp.IsConstruction → d.comp.alike d'.comp = false) ∧
    p.share.program.share.merged = 0 ∧ p.share.program.share.program = p.share.program := by
  obtain ⟨heq, hj⟩ := Program.share_eq (p.check_ok_iff.mp h)
  have hjq := justified_rewrite hj
  have hn := p.noEmptyLet_rewrite p.replacements
  rw [heq]
  refine ⟨hn, fun Δ d d' hd hd' hs hs' hc => ?_, ?_, ?_⟩
  · exact alike_eq_false_of_justified hjq hd hs hc hd' hs'
  · rw [share_self hjq hn]
    rfl
  · rw [share_self hjq hn]

theorem share_fixed_point_cascade : cascade.check = .ok () ∧ cascade.share.merged = 2 ∧
    cascade.share.program.NoEmptyLet ∧ cascade.share.program.share.merged = 0 ∧
    cascade.share.program.share.program = cascade.share.program := by
  have h : cascade.check = .ok () := rfl
  obtain ⟨hn, -, hmerged, hsame⟩ := share_fixed_point h
  exact ⟨h, rfl, hn, hmerged, hsame⟩

end Program

end AnfWasm
