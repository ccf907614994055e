import AnfWasm.Program.Alike
import AnfWasm.Proofs.Program.Renaming
import AnfWasm.Proofs.Scope.Checker
import AnfWasm.Proofs.Scope.Definitions
import AnfWasm.Proofs.Sharing.Substitution

/-!
# What sharing replaces

The table of available constructions is, at each binding, the constructions of sequential lets that
are in scope there (`Reflects`).  So a binding is replaced if and only if a construction in scope is
equal to its own after the replacements, and nothing else is.

Each replacement is recorded once: the identifiers that are replaced are some of those that lets
bind, in the same order (`Records`).
-/

namespace AnfWasm
open Sharing

/-! ### constructions -/

/-- an immutable value is built -/
def Comp.IsConstruction : Comp → Prop
  | .adt _ _ _ | .tuple _ => True
  | _ => False

theorem Comp.isConstruction_of_key? {c : Comp} {k : Key} (h : c.key? = some k) :
    c.IsConstruction := by
  cases c with
  | adt | tuple => trivial
  | _ => exact absurd h (by simp [Comp.key?])

theorem Comp.exists_key? {c : Comp} (h : c.IsConstruction) : ∃ k, c.key? = some k := by
  cases c with
  | adt | tuple => exact ⟨_, rfl⟩
  | _ => exact h.elim

theorem Comp.isConstruction_rewrite {F : Merges} {c : Comp} :
    (c.rewrite F).IsConstruction ↔ c.IsConstruction := by
  cases c <;> exact Iff.rfl

theorem Imm.alike_iff (a b : Imm) : a.alike b = true ↔ a.atom = b.atom := by
  cases a <;> cases b <;> simp [Imm.alike, Imm.atom, Ident.same]

theorem Imm.alikes_iff {as bs : List Imm} :
    Imm.alikes as bs = true ↔ as.map Imm.atom = bs.map Imm.atom :=
  isEqv_iff_map_eq Imm.alike_iff

/-- Constructions have one key exactly if they are equal up to display names. -/
theorem Comp.alike_iff_key? {c c' : Comp} (h : c.IsConstruction) :
    c.alike c' = true ↔ c.key? = c'.key? := by
  cases c with
  | adt typeTag variant args =>
    cases c' <;> simp [Comp.alike, Comp.key?, Imm.alikes_iff, and_assoc]
  | tuple args => cases c' <;> simp [Comp.alike, Comp.key?, Imm.alikes_iff]
  | _ => exact h.elim

namespace Sharing

/-! ### the table is what is in scope -/

/-- The table has the constructions of sequential lets in `Γ`, each key once, and with an identifier
that is not replaced. -/
structure Reflects (F : Merges) (T : Available) (Γ : List Def) : Prop where
  sound : ∀ {k a}, (k, a) ∈ T → replacement? F a.stamp = none ∧
    ∃ d ∈ Γ, d.id = a ∧ d.kind = .sequential ∧ (d.comp.rewrite F).key? = some k
  complete : ∀ {d k}, d ∈ Γ → d.kind = .sequential → (d.comp.rewrite F).key? = some k →
    (T.lookup k).isSome

namespace Reflects
variable {F : Merges} {T : Available} {Γ : List Def} {kind : LetKind}

theorem start (F : Merges) : Reflects F [] [] where
  sound h := absurd h List.not_mem_nil
  complete h := absurd h List.not_mem_nil

/-- the bindings of a group are not available -/
theorem group (h : Reflects F T Γ) (bs : List Binding) :
    Reflects F T (Def.ofLet .recursive bs ++ Γ) where
  sound hk := by
    obtain ⟨hn, d, hd, hrest⟩ := h.sound hk
    exact ⟨hn, d, List.mem_append_right _ hd, hrest⟩
  complete hd hs hk := by
    rcases List.mem_append.mp hd with hd | hd
    · obtain ⟨b, -, rfl⟩ := Def.mem_ofLet.mp hd
      exact absurd hs (by simp)
    · exact h.complete hd hs hk

theorem first (h : Reflects F T Γ) (bs : List Binding) : Reflects F T (Def.atFirst kind Γ bs) := by
  cases kind with
  | sequential => exact h
  | recursive => exact h.group bs

theorem next (h : Reflects F T Γ) {b : Binding}
    (hj : replacement? F b.id.stamp = available? kind T (b.comp.rewrite F)) :
    Reflects F (extend kind T b.id (b.comp.rewrite F)) (Def.atNext kind Γ b) := by
  cases kind with
  | recursive => exact h
  | sequential =>
    have hold {k : Key} {a : Ident} (hk : (k, a) ∈ T) : replacement? F a.stamp = none ∧
        ∃ d ∈ Def.atNext .sequential Γ b, d.id = a ∧ d.kind = .sequential ∧
          (d.comp.rewrite F).key? = some k := by
      obtain ⟨hn, d, hd, hrest⟩ := h.sound hk
      exact ⟨hn, d, List.mem_cons_of_mem _ hd, hrest⟩
    rcases extend_cases .sequential T b.id (b.comp.rewrite F) with he | ⟨k, hk, ha, -, -, he⟩
    · rw [he]
      refine ⟨hold, fun {d k'} hd hs hk' => ?_⟩
      rcases List.mem_cons.mp hd with rfl | hd
      · -- the table did not grow, so the key was in it
        cases hl : T.lookup k' with
        | some a => rfl
        | none =>
          have hk'' : (b.comp.rewrite F).key? = some k' := hk'
          have hgrown : extend .sequential T b.id (b.comp.rewrite F) = (k', b.id) :: T := by
            simp [extend, hk'', hl]
          have hlen := congrArg List.length (he.symm.trans hgrown)
          rw [List.length_cons] at hlen
          omega
      · exact h.complete hd hs hk'
    · rw [he]
      refine ⟨fun {k' a} hk' => ?_, fun {d k'} hd hs hk' => ?_⟩
      · rcases List.mem_cons.mp hk' with hk' | hk'
        · obtain ⟨rfl, rfl⟩ := Prod.mk.inj hk'
          exact ⟨hj.trans ha, ⟨.sequential, b⟩, List.mem_cons_self, rfl, rfl, hk⟩
        · exact hold hk'
      · by_cases hkey : k' = k
        · rw [hkey, List.lookup_cons_self]
          rfl
        · rw [List.lookup_cons, beq_false_of_ne hkey]
          rcases List.mem_cons.mp hd with rfl | hd
          · exact absurd (Option.some.inj (hk'.symm.trans hk)) hkey
          · exact h.complete hd hs hk'

theorem all (h : Reflects F T Γ) {bs : List Binding} (hj : Binding.Justified F kind T bs) :
    Reflects F (extendAll F kind T bs) (Def.ofLet kind bs ++ Γ) := by
  induction bs generalizing T Γ with
  | nil => exact h
  | cons b bs ih =>
    obtain ⟨id, comp, span⟩ := b
    rw [Def.ofLet_cons_append]
    have hnext := h.next (b := ⟨id, comp, span⟩) hj.2.1
    cases kind with
    | sequential => exact ih hnext hj.2.2
    | recursive => exact ih (h.group [⟨id, comp, span⟩]) hj.2.2

end Reflects

/-- the table at a binding decides what becomes of it -/
def Decided (F : Merges) (Δ : List Def) (d : Def) : Prop :=
  ∃ T, Reflects F T Δ ∧ replacement? F d.id.stamp = available? d.kind T (d.comp.rewrite F)

end Sharing

mutual

theorem Comp.decided (c : Comp) {F : Merges} {T : Available} {Γ Δ : List Def} {d : Def}
    (hr : Reflects F T Γ) (hj : c.Justified F T) (hd : c.Defines Γ Δ d) : Decided F Δ d := by
  match c with
  | .branch cond thenArm elseArm =>
    rcases hd with hd | hd
    · exact thenArm.decided hr hj.1 hd
    · exact elseArm.decided hr hj.2 hd
  | .imm _ | .prim1 _ _ | .prim2 _ _ _ | .adt _ _ _ | .tuple _ | .tupleGet _ _ | .boxNew _
  | .unbox _ | .boxSet _ _ | .call _ _ | .callForeign _ _ | .fail _ => exact hd.elim

theorem Binding.decided (bs : List Binding) {F : Merges} {T : Available} {kind : LetKind}
    {Γ Δ : List Def} {d : Def} (hr : Reflects F T Γ) (hj : Binding.Justified F kind T bs)
    (hd : Binding.Defines kind Γ Δ d bs) : Decided F Δ d := by
  match bs with
  | [] => exact hd.elim
  | ⟨id, comp, span⟩ :: bs =>
    rcases hd with hd | ⟨rfl, rfl⟩ | hd
    · exact comp.decided hr hj.1 hd
    · exact ⟨T, hr, hj.2.1⟩
    · exact Binding.decided bs (hr.next (b := ⟨id, comp, span⟩) hj.2.1) hj.2.2 hd

theorem Expr.decided (e : Expr) {F : Merges} {T : Available} {Γ Δ : List Def} {d : Def}
    (hr : Reflects F T Γ) (hj : e.Justified F T) (hd : e.Defines Γ Δ d) : Decided F Δ d := by
  match e with
  | .letIn kind bs body =>
    rcases hd with hd | hd
    · exact Binding.decided bs (hr.first bs) hj.1 hd
    · exact body.decided (hr.all hj.1) hj.2 hd
  | .seq comp rest =>
    rcases hd with hd | hd
    · exact comp.decided hr hj.1 hd
    · exact rest.decided hr hj.2 hd
  | .comp comp => exact comp.decided hr hj hd

end

theorem Program.decided {p : Program} {F : Merges} {Δ : List Def} {d : Def} (hj : p.Justified F)
    (hd : p.Defines Δ d) : Decided F Δ d := by
  rcases hd with ⟨f, hf, hd⟩ | hd
  · exact f.body.decided (.start F) (hj.1 f hf).2 hd
  · exact p.body.decided (.start F) hj.2 hd

namespace Sharing

/-- A construction of a sequential let that is equal to another one in scope, bound to `a` by a
sequential let, once the replacements are made in both. -/
structure Repeats (F : Merges) (Δ : List Def) (d : Def) (a : Ident) : Prop where
  kind : d.kind = .sequential
  construction : d.comp.IsConstruction
  earlier : ∃ d' ∈ Δ, d'.id = a ∧ d'.kind = .sequential ∧ d'.comp.IsConstruction ∧
    (d'.comp.rewrite F).alike (d.comp.rewrite F) = true

theorem Decided.repeats {F : Merges} {Δ : List Def} {d : Def} {a : Ident} (h : Decided F Δ d)
    (ha : replacement? F d.id.stamp = some a) :
    replacement? F a.stamp = none ∧ Repeats F Δ d a := by
  obtain ⟨T, hT, hrep⟩ := h
  rw [ha] at hrep
  obtain ⟨k, hk, hmem⟩ := mem_of_available? hrep.symm
  obtain ⟨hn, d', hd', hid, hs, hk'⟩ := hT.sound hmem
  have hc' := Comp.isConstruction_of_key? hk'
  refine ⟨hn, ?_, Comp.isConstruction_rewrite.mp (Comp.isConstruction_of_key? hk), d', hd', hid, hs,
    Comp.isConstruction_rewrite.mp hc', (Comp.alike_iff_key? hc').mpr (hk'.trans hk.symm)⟩
  cases hkind : d.kind with
  | sequential => rfl
  | recursive =>
    rw [hkind] at hrep
    exact absurd hrep (by simp [available?])

/-! ### the record of replacements -/

/-- the stamps that are replaced -/
def domain (F : Merges) : List UInt32 := stamps (F.map Prod.fst)

theorem replacement?_eq_none_iff {F : Merges} {n : UInt32} :
    replacement? F n = none ↔ n ∉ domain F := by
  unfold replacement? domain stamps
  rw [Option.map_eq_none_iff, List.find?_eq_none, List.map_map, List.mem_map]
  simp

theorem replacement?_of_mem {F : Merges} {b a : Ident} (hn : (domain F).Nodup)
    (h : (b, a) ∈ F) : replacement? F b.stamp = some a := by
  induction F with
  | nil => exact absurd h List.not_mem_nil
  | cons m F ih =>
    obtain ⟨hm, hF⟩ := List.nodup_cons.mp hn
    rw [replacement?_cons]
    rcases List.mem_cons.mp h with rfl | h
    · exact if_pos rfl
    · rw [if_neg, ih hF h]
      intro heq
      exact hm (mem_stamps.mpr ⟨b, List.mem_map.mpr ⟨(b, a), h, rfl⟩, heq.symm⟩)

/-- On the way from `s` to `s'` some of the binders are replaced, each at most once and in order. -/
def Records (s s' : State) (binders : List Ident) : Prop :=
  ∃ N : Merges, s'.merges = N ++ s.merges ∧ (N.map Prod.fst).reverse.Sublist binders

namespace Records
variable {s s' s'' : State} {xs ys : List Ident}

theorem refl (s : State) : Records s s [] := ⟨[], rfl, List.Sublist.refl _⟩

theorem trans (h : Records s s' xs) (h' : Records s' s'' ys) : Records s s'' (xs ++ ys) := by
  obtain ⟨N, hN, hsub⟩ := h
  obtain ⟨N', hN', hsub'⟩ := h'
  refine ⟨N' ++ N, by rw [hN', hN, List.append_assoc], ?_⟩
  rw [List.map_append, List.reverse_append]
  exact hsub.append hsub'

/-- only the replacements matter -/
theorem congr {t t' : State} (h : Records s s' xs) (ht : t.merges = s.merges)
    (ht' : t'.merges = s'.merges) : Records t t' xs := by
  obtain ⟨N, hN, hsub⟩ := h
  exact ⟨N, by rw [ht', hN, ht], hsub⟩

theorem register (s : State) (b : Binding) : Records s (s.register b) [b.id] := by
  have hsame (t : State) (ht : t.merges = s.merges) : Records s t [b.id] :=
    ⟨[], ht, List.nil_sublist _⟩
  unfold State.register
  split
  · exact hsame _ rfl
  · split
    · exact hsame _ rfl
    · split
      · exact hsame _ rfl
      · split
        · exact ⟨[(b.id, _)], rfl, List.Sublist.refl _⟩
        · exact hsame _ rfl

end Records

theorem pop_merges (s : State) : s.pop.merges = s.merges := by
  unfold State.pop
  split <;> rfl

end Sharing

mutual

theorem Comp.share_records (c : Comp) (s : State) : Records s (c.share s).2 c.binders := by
  match c with
  | .branch cond thenArm elseArm =>
    exact (thenArm.share_records s).trans (elseArm.share_records _)
  | .imm _ | .prim1 _ _ | .prim2 _ _ _ | .adt _ _ _ | .tuple _ | .tupleGet _ _ | .boxNew _
  | .unbox _ | .boxSet _ _ | .call _ _ | .callForeign _ _ | .fail _ => exact .refl s

theorem Binding.shares_records (bs : List Binding) (s : State) :
    Records s (Binding.shares bs s).2 (Binding.binders bs) := by
  match bs with
  | [] => exact .refl s
  | ⟨id, comp, span⟩ :: bs =>
    have hown := Records.register (comp.share s).2 ⟨id, (comp.share s).1, span⟩
    exact (comp.share_records s).trans (hown.trans (Binding.shares_records bs _))

theorem Expr.share_records (e : Expr) (s : State) : Records s (e.share s).2 e.binders := by
  match e with
  | .letIn kind bs body =>
    have hbs := Binding.shares_records bs (s.push kind)
    have hbody := body.share_records (Binding.shares bs (s.push kind)).2
    exact (hbs.trans hbody).congr rfl (pop_merges _)
  | .seq comp rest => exact (comp.share_records s).trans (rest.share_records _)
  | .comp comp => exact comp.share_records s

end

theorem Sharing.shareAll_records (fs : List Func) (s : State) :
    Records s (shareAll fs s).2 (fs.flatMap fun f => f.body.binders) := by
  induction fs generalizing s with
  | nil => exact .refl s
  | cons f fs ih =>
    rw [shareAll_cons, List.flatMap_cons]
    exact (f.body.share_records s).trans (ih _)

namespace Program
variable {p : Program}

theorem share_records (p : Program) : (p.share.merges.map Prod.fst).Sublist p.letBinders := by
  have hfuns := shareAll_records p.functions .start
  have hbody := p.body.share_records (shareAll p.functions .start).2
  obtain ⟨N, hN, hsub⟩ := hfuns.trans hbody
  have hmerges : p.share.merges = N.reverse := by
    show ((p.body.share (shareAll p.functions .start).2).2.merges).reverse = _
    rw [hN]
    show (N ++ []).reverse = _
    rw [List.append_nil]
  rw [hmerges, List.map_reverse]
  exact hsub

theorem nodup_domain (h : p.WellFormed) : (domain p.replacements).Nodup := by
  have hsub := p.share_records.trans p.letBinders_sublist
  rw [domain, replacements, List.map_reverse]
  show ((p.share.merges.map Prod.fst).reverse.map Ident.stamp).Nodup
  rw [List.map_reverse, List.nodup_reverse]
  exact h.bound_once.sublist (hsub.map Ident.stamp)

theorem defines_of_mem_replacements {b a : Ident} (h : (b, a) ∈ p.replacements) :
    ∃ Δ d, p.Defines Δ d ∧ d.id = b := by
  have hb : b ∈ p.share.merges.map Prod.fst :=
    List.mem_map.mpr ⟨(b, a), List.mem_reverse.mp h, rfl⟩
  exact defines_of_mem_letBinders (p.share_records.subset hb)

/-- **Sharing is a substitution and nothing else.**  A program that passes the check is rewritten at
once with a finite map of as many stamps as bindings were merged.  Each of them is bound to a
construction that repeats an earlier one in scope, whose identifier takes its place and is not
replaced itself.  No other binding is replaced. -/
theorem share_substitution (h : p.check = .ok ()) :
    ∃ F : Merges, F.length = p.share.merged ∧ (domain F).Nodup ∧ p.share.program = p.rewrite F ∧
      (∀ b a, (b, a) ∈ F → a.stamp ∉ domain F ∧ [a, b].Sublist p.letBinders ∧
        ∃ Δ d, p.Defines Δ d ∧ d.id = b ∧ Repeats F Δ d a) ∧
      ∀ Δ d, p.Defines Δ d → d.id.stamp ∈ domain F →
        d.kind = .sequential ∧ d.comp.IsConstruction := by
  have hw := p.check_ok_iff.mp h
  obtain ⟨heq, hj⟩ := Program.share_eq hw
  refine ⟨p.replacements, List.length_reverse, nodup_domain hw, heq, fun b a hba => ?_,
    fun Δ d hd hdom => ?_⟩
  · obtain ⟨Δ, d, hd, rfl⟩ := defines_of_mem_replacements hba
    obtain ⟨hn, hrep⟩ := (decided hj hd).repeats (replacement?_of_mem (nodup_domain hw) hba)
    obtain ⟨d', hd', rfl, hs, -⟩ := hrep.earlier
    exact ⟨replacement?_eq_none_iff.mp hn, sublist_of_defines hd hd' hs, Δ, d, hd, rfl, hrep⟩
  · cases ha : replacement? p.replacements d.id.stamp with
    | none => exact absurd hdom (replacement?_eq_none_iff.mp ha)
    | some a =>
      obtain ⟨-, hrep⟩ := (decided hj hd).repeats ha
      exact ⟨hrep.kind, hrep.construction⟩

end Program

/-- Two pairs, two variants that are equal once the pairs are shared, and lets that go. -/
def Sharing.cascade : Program :=
  .ofBody (.letIn .sequential [] (.letIn .sequential [
      ⟨⟨"a", 0⟩, .tuple [.int 1], none⟩,
      ⟨⟨"b", 1⟩, .tuple [.int 1], none⟩,
      ⟨⟨"c", 2⟩, .boxNew (.id ⟨"b", 1⟩), none⟩,
      ⟨⟨"u", 3⟩, .adt 2 1 [.id ⟨"a", 0⟩], none⟩]
    (.letOne ⟨"v", 4⟩ (.adt 2 1 [.id ⟨"b", 1⟩])
      (.comp (.tuple [.id ⟨"u", 3⟩, .id ⟨"v", 4⟩])))))

theorem Program.share_substitution_cascade : cascade.check = .ok () ∧
    ∃ F : Merges, F.length = 2 ∧ (domain F).Nodup ∧ cascade.share.program = cascade.rewrite F ∧
      ∀ b a, (b, a) ∈ F → a.stamp ∉ domain F := by
  have h : cascade.check = .ok () := rfl
  obtain ⟨F, hlen, hnodup, heq, hentries, -⟩ := Program.share_substitution h
  exact ⟨h, F, hlen, hnodup, heq, fun b a hba => (hentries b a hba).1⟩

end AnfWasm
