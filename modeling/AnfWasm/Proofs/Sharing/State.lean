import AnfWasm.Proofs.Scope.Sites
import AnfWasm.Proofs.Sharing.Rewrite

/-!
# The state of the sharing pass

When every identifier is bound once, a binder is either replaced or can stand for others, never
both: `Settled K s`, where `K` are the stamps whose fate is decided.  So a chain of replacements has
one step at most, and `State.resolve` is the substitution `standIn` (`Settled.resolve_eq`).

`Pass K news s s'` says what happens to the replacements while a part of a program with the binders
`news` is mapped.  The table and the regions are as before after each expression
(`Expr.share_table`): the keys that a let has brought in are new, so taking them out by content
takes out no others (`Opened.pop`).
-/

namespace AnfWasm

namespace Sharing

theorem replacement?_cons (m : Ident × Ident) (F : Merges) (n : UInt32) :
    replacement? (m :: F) n = if m.1.stamp = n then some m.2 else replacement? F n := by
  unfold replacement?
  rw [List.find?_cons]
  by_cases h : m.1.stamp = n <;> simp [h]

theorem length_pos_of_replacement? {F : Merges} {n : UInt32} {a : Ident}
    (h : replacement? F n = some a) : 0 < F.length := by
  cases F with
  | nil => exact absurd h (by simp [replacement?])
  | cons m F => exact Nat.succ_pos _

theorem follow_of_none {F : Merges} {x : Ident} (h : replacement? F x.stamp = none) (n : Nat) :
    follow F n x = x := by
  cases n with
  | zero => rfl
  | succ n => simp only [follow, h]

/-- Every stamp of which the pass knows is among `K`, and no identifier that may stand for others is
replaced itself. -/
structure Settled (K : List UInt32) (s : State) : Prop where
  replaced : ∀ {n a}, replacement? s.merges n = some a → n ∈ K
  target : ∀ {n a}, replacement? s.merges n = some a →
    a.stamp ∈ K ∧ replacement? s.merges a.stamp = none
  table : ∀ {k a}, (k, a) ∈ s.table → a.stamp ∈ K ∧ replacement? s.merges a.stamp = none

theorem settled_start (K : List UInt32) : Settled K State.start where
  replaced h := absurd h (by simp [replacement?, State.start])
  target h := absurd h (by simp [replacement?, State.start])
  table h := absurd h (by simp [State.start])

namespace Settled
variable {K K' : List UInt32} {s : State}

theorem mono (h : Settled K s) (hK : ∀ n ∈ K, n ∈ K') : Settled K' s where
  replaced e := hK _ (h.replaced e)
  target e := ⟨hK _ (h.target e).1, (h.target e).2⟩
  table e := ⟨hK _ (h.table e).1, (h.table e).2⟩

theorem eq_none (h : Settled K s) {n : UInt32} (hn : n ∉ K) : replacement? s.merges n = none := by
  cases e : replacement? s.merges n with
  | none => rfl
  | some a => exact absurd (h.replaced e) hn

theorem resolve_eq (h : Settled K s) (x : Ident) : s.resolve x = standIn s.merges x := by
  unfold State.resolve standIn
  cases e : replacement? s.merges x.stamp with
  | none => exact follow_of_none e _
  | some a =>
    obtain ⟨n, hn⟩ := Nat.exists_eq_succ_of_ne_zero (Nat.ne_of_gt (length_pos_of_replacement? e))
    rw [hn, follow, e]
    exact follow_of_none (h.target e).2 n

theorem resolveImm_eq (h : Settled K s) : s.resolveImm = standInImm s.merges := by
  funext a
  cases a with
  | id x => exact congrArg Imm.id (h.resolve_eq x)
  | const c => rfl

/-- only the replacements and the table matter -/
theorem congr {t : State} (h : Settled K s) (hm : t.merges = s.merges)
    (ht : ∀ e ∈ t.table, e ∈ s.table) : Settled K t where
  replaced e := h.replaced (hm ▸ e)
  target e := by
    rw [hm] at e ⊢
    exact h.target e
  table e := by
    rw [hm]
    exact h.table (ht _ e)

end Settled

/-! ### registering a binding -/

/-- A binding is passed over, or it is replaced by a construction of the table, or it enters the
table and the first region under a key that is new there. -/
theorem State.register_cases (s : State) (b : Binding) :
    s.register b = s ∨
    (∃ k x, (k, x) ∈ s.table ∧ s.register b = { s with merges := (b.id, x) :: s.merges }) ∨
    ∃ k f fs, s.regions = f :: fs ∧ s.table.lookup k = none ∧
      s.register b = { s with
        table := (k, b.id) :: s.table
        regions := { f with keys := k :: f.keys } :: fs } := by
  unfold State.register
  cases hf : s.regions with
  | nil => exact .inl rfl
  | cons f fs =>
    simp only
    split
    · exact .inl rfl
    · cases b.comp.key? with
      | none => exact .inl rfl
      | some k =>
        simp only
        cases hl : s.table.lookup k with
        | none => exact .inr (.inr ⟨k, f, fs, rfl, hl, rfl⟩)
        | some x =>
          obtain ⟨l₁, l₂, ht, -⟩ := List.lookup_eq_some_iff.mp hl
          exact .inr (.inl ⟨k, x, ht ▸ List.mem_append_right _ List.mem_cons_self, hf ▸ rfl⟩)

theorem isPure_of_key? {c : Comp} {k : Key} (h : c.key? = some k) : c.purity.isPure = true := by
  cases c with
  | adt | tuple => rfl
  | _ => exact absurd h (by simp [Comp.key?])

section
variable {kind : LetKind} {keys : List Key} {fs : List Region} {s : State}

theorem register_merges (hf : s.regions = ⟨kind, keys⟩ :: fs) (b : Binding) :
    (s.register b).merges = match available? kind s.table b.comp with
      | some a => (b.id, a) :: s.merges
      | none => s.merges := by
  unfold State.register available?
  rw [hf]
  cases kind with
  | recursive => simp
  | sequential =>
    cases hk : b.comp.key? with
    | none => simp
    | some k =>
      cases hl : s.table.lookup k with
      | none => simp [isPure_of_key? hk, hl]
      | some a => simp [isPure_of_key? hk, hl]

theorem register_table (hf : s.regions = ⟨kind, keys⟩ :: fs) (b : Binding) :
    (s.register b).table = extend kind s.table b.id b.comp := by
  unfold State.register extend
  rw [hf]
  cases kind with
  | recursive => simp
  | sequential =>
    cases hk : b.comp.key? with
    | none => simp
    | some k =>
      cases hl : s.table.lookup k with
      | none => simp [isPure_of_key? hk, hl]
      | some a => simp [isPure_of_key? hk, hl]

end

/-! ### the table of an open let -/

/-- A let of that kind is open: its region has the keys of the entries in front of `T`, the table
before it. -/
def Opened (kind : LetKind) (fs : List Region) (T : Available) (s : State) : Prop :=
  ∃ N : Available, s.table = N ++ T ∧ s.regions = ⟨kind, N.map Prod.fst⟩ :: fs ∧
    ∀ e ∈ N, T.lookup e.1 = none

section
variable {kind : LetKind} {fs : List Region} {T : Available} {s : State}

theorem opened_push (s : State) (kind : LetKind) : Opened kind s.regions s.table (s.push kind) :=
  ⟨[], rfl, rfl, fun _ h => absurd h List.not_mem_nil⟩

theorem Opened.regions (h : Opened kind fs T s) : ∃ keys, s.regions = ⟨kind, keys⟩ :: fs := by
  obtain ⟨N, -, hf, -⟩ := h
  exact ⟨_, hf⟩

theorem Opened.congr {t : State} (h : Opened kind fs T s) (ht : t.table = s.table)
    (hf : t.regions = s.regions) : Opened kind fs T t := by
  unfold Opened
  rw [ht, hf]
  exact h

theorem Opened.register (h : Opened kind fs T s) (b : Binding) :
    Opened kind fs T (s.register b) := by
  obtain ⟨N, ht, hf, hN⟩ := h
  rcases s.register_cases b with he | ⟨k, x, -, he⟩ | ⟨k, f, fs', hf', hl, he⟩
  · rw [he]
    exact ⟨N, ht, hf, hN⟩
  · rw [he]
    exact ⟨N, ht, hf, hN⟩
  · obtain ⟨rfl, rfl⟩ := List.cons.inj (hf'.symm.trans hf)
    rw [he]
    refine ⟨(k, b.id) :: N, by rw [ht]; rfl, rfl, fun e he => ?_⟩
    rcases List.mem_cons.mp he with rfl | he
    · rw [ht, List.lookup_append] at hl
      exact (Option.or_eq_none_iff.mp hl).2
    · exact hN e he

theorem Opened.pop (h : Opened kind fs T s) :
    s.pop.table = T ∧ s.pop.regions = fs ∧ s.pop.merges = s.merges := by
  obtain ⟨N, ht, hf, hN⟩ := h
  unfold State.pop
  simp only [hf]
  refine ⟨?_, trivial, trivial⟩
  rw [ht, List.filter_append]
  have hnew : N.filter (fun e => !(N.map Prod.fst).contains e.1) = [] := by
    rw [List.filter_eq_nil_iff]
    intro e he
    simp only [Bool.not_eq_true', Bool.not_eq_false, List.contains_iff_mem]
    exact List.mem_map.mpr ⟨e, he, rfl⟩
  have hold : T.filter (fun e => !(N.map Prod.fst).contains e.1) = T := by
    rw [List.filter_eq_self]
    intro e he
    rw [Bool.not_eq_true', List.contains_eq_mem, decide_eq_false_iff_not]
    intro hk
    obtain ⟨e', he', hkey⟩ := List.mem_map.mp hk
    have := List.lookup_eq_none_iff.mp (hN e' he') e he
    exact absurd this (by simp [hkey])
  rw [hnew, hold, List.nil_append]

end

/-! ### what a part of a program does to the state -/

/-- The binders `news` are settled on the way from `s` to `s'`, and nothing else is decided. -/
structure Pass (K : List UInt32) (news : List Ident) (s s' : State) : Prop where
  settled : Settled (stamps news ++ K) s'
  kept : ∀ {n}, n ∉ stamps news → replacement? s'.merges n = replacement? s.merges n

namespace Pass
variable {K : List UInt32} {xs ys : List Ident} {s s' s'' : State}

theorem refl (h : Settled K s) : Pass K [] s s := ⟨h, fun _ => rfl⟩

theorem trans (h : Pass K xs s s') (h' : Pass (stamps xs ++ K) ys s' s'') :
    Pass K (xs ++ ys) s s'' := by
  constructor
  · refine h'.settled.mono fun n hn => ?_
    rw [stamps_append]
    simp only [List.mem_append] at hn ⊢
    rcases hn with hn | hn | hn
    · exact .inl (.inr hn)
    · exact .inl (.inl hn)
    · exact .inr hn
  · intro n hn
    rw [stamps_append, List.mem_append, not_or] at hn
    exact (h'.kept hn.2).trans (h.kept hn.1)

/-- only the replacements and the table matter -/
theorem congr {t : State} (h : Pass K xs s s') (hm : t.merges = s'.merges)
    (ht : ∀ e ∈ t.table, e ∈ s'.table) : Pass K xs s t :=
  ⟨h.settled.congr hm ht, fun hn => by rw [hm, h.kept hn]⟩

theorem register (h : Settled K s) (b : Binding) (hb : b.id.stamp ∉ K) :
    Pass K [b.id] s (s.register b) := by
  have hs : Settled (b.id.stamp :: K) s := h.mono fun n => List.mem_cons_of_mem _
  rcases s.register_cases b with he | ⟨k, x, hx, he⟩ | ⟨k, f, fs, -, -, he⟩
  · rw [he]
    exact ⟨hs, fun _ => rfl⟩
  · have hm : (s.register b).merges = (b.id, x) :: s.merges := by rw [he]
    have ht : (s.register b).table = s.table := by rw [he]
    -- what was decided before is still decided in the same way
    have hold : ∀ {n}, n ∈ K → replacement? (s.register b).merges n = replacement? s.merges n := by
      intro n hn
      rw [hm, replacement?_cons, if_neg]
      exact fun e => hb (e ▸ hn)
    have hin : ∀ {y : Ident}, y.stamp ∈ K → replacement? s.merges y.stamp = none →
        y.stamp ∈ stamps [b.id] ++ K ∧ replacement? (s.register b).merges y.stamp = none :=
      fun hy hn => ⟨List.mem_append_right _ hy, (hold hy).trans hn⟩
    refine ⟨⟨fun {n y} e => ?_, fun {n y} e => ?_, fun {k y} e => ?_⟩, fun {n} hn => ?_⟩
    · rw [hm, replacement?_cons] at e
      by_cases hn : b.id.stamp = n
      · exact hn ▸ List.mem_cons_self
      · exact List.mem_cons_of_mem _ (h.replaced (by rwa [if_neg hn] at e))
    · rw [hm, replacement?_cons] at e
      by_cases hn : b.id.stamp = n
      · rw [if_pos hn] at e
        obtain rfl := Option.some.inj e
        exact hin (h.table hx).1 (h.table hx).2
      · rw [if_neg hn] at e
        exact hin (h.target e).1 (h.target e).2
    · rw [ht] at e
      exact hin (h.table e).1 (h.table e).2
    · rw [hm, replacement?_cons, if_neg]
      exact fun e => hn (e ▸ List.mem_singleton_self _)
  · rw [he]
    refine ⟨⟨hs.replaced, hs.target, fun {k a} e => ?_⟩, fun _ => rfl⟩
    rcases List.mem_cons.mp e with e | e
    · obtain ⟨-, rfl⟩ := Prod.mk.inj e
      exact ⟨List.mem_cons_self, h.eq_none hb⟩
    · exact hs.table e

end Pass

end Sharing

open Sharing

mutual

/-- A computation leaves the table and the regions as they are, whatever its stamps are. -/
theorem Comp.share_table (c : Comp) (s : State) :
    (c.share s).2.table = s.table ∧ (c.share s).2.regions = s.regions := by
  match c with
  | .branch cond thenArm elseArm =>
    obtain ⟨ht1, hr1⟩ := thenArm.share_table s
    obtain ⟨ht2, hr2⟩ := elseArm.share_table (thenArm.share s).2
    exact ⟨ht2.trans ht1, hr2.trans hr1⟩
  | .imm _ | .prim1 _ _ | .prim2 _ _ _ | .adt _ _ _ | .tuple _ | .tupleGet _ _ | .boxNew _
  | .unbox _ | .boxSet _ _ | .call _ _ | .callForeign _ _ | .fail _ => exact ⟨rfl, rfl⟩

theorem Binding.shares_opened (bs : List Binding) {s : State} {kind : LetKind} {fs : List Region}
    {T : Available} (ho : Opened kind fs T s) : Opened kind fs T (Binding.shares bs s).2 := by
  match bs with
  | [] => exact ho
  | ⟨id, comp, span⟩ :: bs =>
    obtain ⟨ht, hr⟩ := comp.share_table s
    exact Binding.shares_opened bs ((ho.congr ht hr).register ⟨id, (comp.share s).1, span⟩)

theorem Expr.share_table (e : Expr) (s : State) :
    (e.share s).2.table = s.table ∧ (e.share s).2.regions = s.regions := by
  match e with
  | .letIn kind bs body =>
    have ho := Binding.shares_opened bs (opened_push s kind)
    obtain ⟨ht, hr⟩ := body.share_table (Binding.shares bs (s.push kind)).2
    obtain ⟨htable, hregions, -⟩ := (ho.congr ht hr).pop
    exact ⟨htable, hregions⟩
  | .seq comp rest =>
    obtain ⟨ht1, hr1⟩ := comp.share_table s
    obtain ⟨ht2, hr2⟩ := rest.share_table (comp.share s).2
    exact ⟨ht2.trans ht1, hr2.trans hr1⟩
  | .comp comp => exact comp.share_table s

end

mutual

theorem Comp.share_pass (c : Comp) {K : List UInt32} {s : State} (hs : Settled K s)
    (hf : Fresh K c.binders) : (c.share s).2.table = s.table ∧ (c.share s).2.regions = s.regions ∧
      Pass K c.binders s (c.share s).2 := by
  refine and_assoc.mp ⟨c.share_table s, ?_⟩
  match c with
  | .branch cond thenArm elseArm =>
    obtain ⟨hf1, hf2⟩ := hf.append
    obtain ⟨-, -, hp1⟩ := thenArm.share_pass hs hf1
    obtain ⟨-, -, hp2⟩ := elseArm.share_pass hp1.settled hf2
    exact hp1.trans hp2
  | .imm _ | .prim1 _ _ | .prim2 _ _ _ | .adt _ _ _ | .tuple _ | .tupleGet _ _ | .boxNew _
  | .unbox _ | .boxSet _ _ | .call _ _ | .callForeign _ _ | .fail _ => exact .refl hs

theorem Binding.shares_pass (bs : List Binding) {K : List UInt32} {s : State} {kind : LetKind}
    {fs : List Region} {T : Available} (ho : Opened kind fs T s) (hs : Settled K s)
    (hf : Fresh K (Binding.binders bs)) :
    Opened kind fs T (Binding.shares bs s).2 ∧
      Pass K (Binding.binders bs) s (Binding.shares bs s).2 := by
  refine ⟨Binding.shares_opened bs ho, ?_⟩
  match bs with
  | [] => exact .refl hs
  | ⟨id, comp, span⟩ :: bs =>
    obtain ⟨hf1, hf2⟩ := hf.append
    obtain ⟨hid, hf3⟩ := hf2.cons
    obtain ⟨ht1, hr1, hp1⟩ := comp.share_pass hs hf1
    have ho1 := ho.congr ht1 hr1
    have hp2 := Pass.register hp1.settled ⟨id, (comp.share s).1, span⟩ hid
    obtain ⟨-, hp3⟩ := Binding.shares_pass bs (ho1.register _) hp2.settled hf3
    exact hp1.trans (hp2.trans hp3)

theorem Expr.share_pass (e : Expr) {K : List UInt32} {s : State} (hs : Settled K s)
    (hf : Fresh K e.binders) : (e.share s).2.table = s.table ∧ (e.share s).2.regions = s.regions ∧
      Pass K e.binders s (e.share s).2 := by
  refine and_assoc.mp ⟨e.share_table s, ?_⟩
  match e with
  | .letIn kind bs body =>
    obtain ⟨hf1, hf2⟩ := hf.append
    have hs0 : Settled K (s.push kind) := hs.congr rfl fun _ h => h
    obtain ⟨ho, hp1⟩ := Binding.shares_pass bs (opened_push s kind) hs0 hf1
    obtain ⟨ht2, hr2, hp2⟩ := body.share_pass hp1.settled hf2
    have ho2 := ho.congr ht2 hr2
    obtain ⟨ht, -, hm⟩ := ho2.pop
    refine Pass.congr ?_ hm fun e he => ?_
    · exact ⟨(hp1.trans hp2).settled, (hp1.trans hp2).kept⟩
    · obtain ⟨N, hN, -⟩ := ho2
      rw [hN]
      exact List.mem_append_right _ (ht ▸ he)
  | .seq comp rest =>
    obtain ⟨hf1, hf2⟩ := hf.append
    obtain ⟨-, -, hp1⟩ := comp.share_pass hs hf1
    obtain ⟨-, -, hp2⟩ := rest.share_pass hp1.settled hf2
    exact hp1.trans hp2
  | .comp comp => exact (comp.share_pass hs hf).2.2

end

end AnfWasm
