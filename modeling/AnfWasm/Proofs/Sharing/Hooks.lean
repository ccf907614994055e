import AnfWasm.Proofs.Actions
import AnfWasm.Proofs.Sharing.Substitution
import AnfWasm.Sharing.Hooks
import Mathlib.Data.List.Perm.Subperm

/-!
# Sharing as a mapper

`Mirrors` compares a walk with `share`.  It gives the same result in the same state, unless
replacements come to no end, and an invariant of `push`, `pop` and `register` holds in every state
on the way (`Program.mapM_mirrors`).  The other two failures do not occur on any program: the region
of a let is on top again when the let is left, and the table and the regions end as they began.
-/

namespace AnfWasm

namespace Sharing

/-! ### chains of replacements -/

section
variable {F : Merges} {x y : Ident}

theorem follow?_of_none (h : replacement? F x.stamp = none) (n : Nat) :
    follow? F n x = some x := by
  cases n <;> simp [follow?, h]

theorem follow?_of_some (h : replacement? F x.stamp = some y) (n : Nat) :
    follow? F (n + 1) x = follow? F n y := by
  simp [follow?, h]

end

/-- Replacements lead from `x` to `y`, which is not replaced, over the stamps of the list. -/
inductive Chain (F : Merges) : Ident → List UInt32 → Ident → Prop
  | stop {x : Ident} : replacement? F x.stamp = none → Chain F x [] x
  | step {x y z : Ident} {ns : List UInt32} : replacement? F x.stamp = some y → Chain F y ns z →
      Chain F x (x.stamp :: ns) z

theorem chain_of_follow? {F : Merges} {limit : Nat} {x y : Ident}
    (h : follow? F limit x = some y) : ∃ ns, Chain F x ns y := by
  fun_induction follow? F limit x with
  | case1 limit x hr =>
    obtain rfl := Option.some.inj h
    exact ⟨[], .stop hr⟩
  | case2 x z hr => exact absurd h (by simp)
  | case3 x n z hr ih =>
    obtain ⟨ns, hns⟩ := ih h
    exact ⟨_, .step hr hns⟩

namespace Chain
variable {F : Merges} {x y z : Ident} {ns ms : List UInt32}

/-- a chain is told by the stamp that it starts with -/
theorem eq_of_stamp {x' y' : Ident} (h : Chain F x ns y) (h' : Chain F x' ms y')
    (hx : x.stamp = x'.stamp) : ns = ms := by
  induction h generalizing x' ms with
  | stop hr =>
    cases h' with
    | stop => rfl
    | step hr' => exact absurd (hr.symm.trans (hx ▸ hr')) (by simp)
  | step hr _ ih =>
    cases h' with
    | stop hr' => exact absurd (hr.symm.trans (hx ▸ hr')) (by simp)
    | step hr' h' =>
      obtain rfl := Option.some.inj (hr.symm.trans (hx ▸ hr'))
      rw [hx, ih h' rfl]

theorem tail (h : Chain F x ns y) {n : UInt32} (hn : n ∈ ns) :
    ∃ x' ms, x'.stamp = n ∧ Chain F x' ms y ∧ ms.length ≤ ns.length := by
  induction h with
  | stop => exact absurd hn List.not_mem_nil
  | @step x₁ y₁ z₁ ns₁ hr h ih =>
    rcases List.mem_cons.mp hn with rfl | hn
    · exact ⟨x₁, _, rfl, .step hr h, Nat.le_refl _⟩
    · obtain ⟨x', ms, hx', hc, hlen⟩ := ih hn
      exact ⟨x', ms, hx', hc, Nat.le_succ_of_le hlen⟩

/-- A chain that ends does not come to one stamp twice. -/
theorem nodup (h : Chain F x ns y) : ns.Nodup := by
  induction h with
  | stop => exact List.nodup_nil
  | @step x₁ y₁ z₁ ns₁ hr h ih =>
    refine List.nodup_cons.mpr ⟨fun hn => ?_, ih⟩
    obtain ⟨x', ms, hx', hc, hlen⟩ := h.tail hn
    have heq := (Chain.step hr h).eq_of_stamp hc hx'.symm
    rw [← heq, List.length_cons] at hlen
    omega

theorem subset (h : Chain F x ns y) : ns ⊆ F.map fun m => m.1.stamp := by
  induction h with
  | stop => exact List.nil_subset _
  | @step x₁ y₁ z₁ ns₁ hr h ih =>
    refine List.cons_subset.mpr ⟨?_, ih⟩
    obtain ⟨m, hm, -⟩ := Option.map_eq_some_iff.mp hr
    exact List.mem_map.mpr ⟨m, List.mem_of_find?_eq_some hm, by simpa using List.find?_some hm⟩

theorem length_le (h : Chain F x ns y) : ns.length ≤ F.length := by
  have := (h.nodup.subperm h.subset).length_le
  rwa [List.length_map] at this

theorem follow_eq (h : Chain F x ns y) {n : Nat} (hn : ns.length ≤ n) : follow F n x = y := by
  induction h generalizing n with
  | stop hr => exact follow_of_none hr n
  | step hr _ ih =>
    cases n with
    | zero => exact absurd hn (Nat.not_succ_le_zero _)
    | succ n =>
      rw [follow, hr]
      exact ih (Nat.le_of_succ_le_succ hn)

end Chain

/-- Where the loop ends, the length of the list of replacements is enough to get there. -/
theorem resolve_of_follow? {s : State} {limit : Nat} {x y : Ident}
    (h : follow? s.merges limit x = some y) : s.resolve x = y := by
  obtain ⟨ns, hc⟩ := chain_of_follow? h
  exact hc.follow_eq hc.length_le

/-! ### walks that mirror the pass -/

/-- What every step of the pass keeps: `Inv xs s` is about the state `s` when the binders `xs` are
still to come. -/
structure Invariant (Inv : List Ident → State → Prop) : Prop where
  push : ∀ {xs : List Ident} {s : State} (kind : LetKind), Inv xs s → Inv xs (s.push kind)
  pop : ∀ {xs : List Ident} {s : State}, Inv xs s → Inv xs s.pop
  register : ∀ {xs : List Ident} {s : State} (b : Binding), Inv (b.id :: xs) s →
    Inv xs (s.register b)

variable {α β : Type} {limit : Nat} {Inv : List Ident → State → Prop}

/-- The invariant holds in those states. -/
def Throughout (Inv : List Ident → State → Prop) (seen : List State) : Prop :=
  ∀ s ∈ seen, ∃ xs, Inv xs s

/-- A walk gives `a` and leads to `s` through states with the invariant, or it gets no further at a
state with the invariant, where replacements do not come to an end. -/
inductive LeadsTo (limit : Nat) (Inv : List Ident → State → Prop) (past : List State)
    (rest : List Ident) (a : α) (s : State) : EStateM.Result Fault Trail α → Prop
  | ok {seen : List State} : Throughout Inv seen → Inv rest s →
      LeadsTo limit Inv past rest a s (.ok a ⟨s, past ++ seen⟩)
  | endless {seen : List State} {t : State} {x : Ident} : Throughout Inv seen → (∃ xs, Inv xs t) →
      follow? t.merges limit x = none →
      LeadsTo limit Inv past rest a s (.error (.endless x) ⟨t, past ++ seen⟩)

/-- From `s` the walk, which meets the binders `news`, ends with the value and the state `r`. -/
def Mirrors (limit : Nat) (Inv : List Ident → State → Prop) (s : State) (news : List Ident)
    (x : Walk α) (r : α × State) : Prop :=
  ∀ past rest, Inv (news ++ rest) s → LeadsTo limit Inv past rest r.1 r.2 (x ⟨s, past⟩)

theorem throughout_append {as bs : List State} (ha : Throughout Inv as) (hb : Throughout Inv bs) :
    Throughout Inv (as ++ bs) :=
  List.forall_mem_append.mpr ⟨ha, hb⟩

/-- a walk that goes on from states with the invariant -/
theorem LeadsTo.after {past seen : List State} {rest : List Ident} {a : α} {s : State}
    {r : EStateM.Result Fault Trail α} (h : LeadsTo limit Inv (past ++ seen) rest a s r)
    (hseen : Throughout Inv seen) : LeadsTo limit Inv past rest a s r := by
  cases h with
  | ok hmore hs =>
    rw [List.append_assoc]
    exact .ok (throughout_append hseen hmore) hs
  | endless hmore ht hx =>
    rw [List.append_assoc]
    exact .endless (throughout_append hseen hmore) ht hx

namespace Mirrors
variable {s s' : State} {xs ys : List Ident} {a : α} {r : β × State}

theorem pure (s : State) (a : α) : Mirrors limit Inv s [] (pure a) (a, s) := by
  intro past rest h
  have hok : LeadsTo limit Inv past rest a s (.ok a ⟨s, past ++ []⟩) :=
    .ok (fun _ ht => absurd ht List.not_mem_nil) h
  rwa [List.append_nil] at hok

theorem bind {x : Walk α} {f : α → Walk β} (hx : Mirrors limit Inv s xs x (a, s'))
    (hf : Mirrors limit Inv s' ys (f a) r) : Mirrors limit Inv s (xs ++ ys) (x >>= f) r := by
  intro past rest h
  rw [List.append_assoc] at h
  have hleads := hx past (ys ++ rest) h
  generalize hr : x ⟨s, past⟩ = res at hleads
  cases hleads with
  | @ok seen hseen hs' =>
    rw [bind_of_ok hr]
    exact (hf (past ++ seen) rest hs').after hseen
  | endless hseen ht hx =>
    rw [bind_of_error hr]
    exact .endless hseen ht hx

/-- what follows meets no binder -/
theorem last {x : Walk α} {f : α → Walk β} (hx : Mirrors limit Inv s xs x (a, s'))
    (hf : Mirrors limit Inv s' [] (f a) r) : Mirrors limit Inv s xs (x >>= f) r := by
  have h := hx.bind hf
  rwa [List.append_nil] at h

theorem advance {f : State → State} (h : ∀ rest, Inv (xs ++ rest) s → Inv rest (f s)) :
    Mirrors limit Inv s xs (Sharing.advance f) ((), f s) := by
  intro past rest hs
  refine .ok (fun t ht => ?_) (h rest hs)
  obtain rfl := List.mem_singleton.mp ht
  exact ⟨rest, h rest hs⟩

/-- an action on each item that does not change the state -/
theorem mapM {f : α → Walk β} {g : α → β} (h : ∀ a, Mirrors limit Inv s [] (f a) (g a, s))
    (as : List α) : Mirrors limit Inv s [] (as.mapM f) (as.map g, s) := by
  induction as with
  | nil => exact pure s []
  | cons a as ih =>
    rw [List.mapM_cons]
    exact (h a).bind (ih.last (pure s _))

end Mirrors

/-! ### the pass -/

variable {s : State}

theorem mirrors_imm (a : Imm) :
    Mirrors limit Inv s [] (a.mapM (mapper limit)) (s.resolveImm a, s) := by
  cases a with
  | const c => exact .pure s _
  | id x =>
    have henter : Mirrors limit Inv s [] ((mapper limit).enterImm (.id x))
        (s.resolveImm (.id x), s) := by
      intro past rest h
      show LeadsTo limit Inv past rest _ _ (foundAs x (follow? s.merges limit x) ⟨s, past⟩)
      cases hf : follow? s.merges limit x with
      | some y =>
        obtain rfl := resolve_of_follow? hf
        exact Mirrors.pure s _ past rest h
      | none =>
        have hend : LeadsTo limit Inv past rest (s.resolveImm (.id x)) s
            (.error (.endless x) ⟨s, past ++ []⟩) :=
          .endless (fun _ ht => absurd ht List.not_mem_nil) ⟨_, h⟩ hf
        rwa [List.append_nil] at hend
    exact henter.last (.pure s _)

theorem mirrors_leaveBinding (hI : Invariant Inv) (b : Binding) :
    Mirrors limit Inv s [b.id] ((mapper limit).leaveBinding b) (b, s.register b) := by
  have hregister : Mirrors limit Inv s [b.id] (advance (·.register b)) ((), s.register b) :=
    Mirrors.advance fun _ hs => hI.register b hs
  show Mirrors limit Inv s [b.id] (advance (·.register b) >>= fun _ => Pure.pure b) _
  exact hregister.last (.pure _ b)

theorem mirrors_enterLet (hI : Invariant Inv) (kind : LetKind) (bs : List Binding) (body : Expr) :
    Mirrors limit Inv s [] ((mapper limit).enterExpr (.letIn kind bs body))
      (.letIn kind bs body, s.push kind) := by
  have hpush : Mirrors limit Inv s [] (advance (·.push kind)) ((), s.push kind) :=
    Mirrors.advance fun _ hs => hI.push kind hs
  show Mirrors limit Inv s [] (advance (·.push kind) >>= fun _ => Pure.pure _) _
  exact hpush.last (.pure _ _)

theorem mirrors_leaveLet (hI : Invariant Inv) (h : s.regions ≠ []) (kind : LetKind)
    (bs : List Binding) (body : Expr) :
    Mirrors limit Inv s [] ((mapper limit).leaveExpr (.letIn kind bs body))
      (prune s.pop kind bs body, s.pop) := by
  have hclose : Mirrors limit Inv s [] closeRegion ((), s.pop) := by
    intro past rest hs
    have hrun : closeRegion ⟨s, past⟩ = advance State.pop ⟨s, past⟩ := by
      show (if s.regions.isEmpty then throw .outOfSync else advance State.pop : Walk Unit) _ = _
      rw [if_neg (by simpa using h)]
    rw [hrun]
    exact Mirrors.advance (fun rest => hI.pop) past rest hs
  exact hclose.last fun past rest hs => Mirrors.pure s.pop _ past rest hs

theorem mirrors_checkEmpty (hf : s.regions = []) (ht : s.table = []) :
    Mirrors limit Inv s [] checkEmpty ((), s) := by
  intro past rest hs
  have hrun : checkEmpty ⟨s, past⟩ = .ok () ⟨s, past⟩ := by
    show (if s.regions.isEmpty && s.table.isEmpty then pure () else throw .leftover : Walk Unit) _
      = _
    rw [hf, ht]
    rfl
  rw [hrun]
  exact Mirrors.pure s () past rest hs

end Sharing

open Sharing

section
variable {Inv : List Ident → State → Prop}

mutual

theorem Comp.mapM_mirrors (hI : Invariant Inv) (limit : Nat) (c : Comp) {n : Nat} (h : c.height ≤ n)
    (s : State) : Mirrors limit Inv s c.binders (c.mapM (mapper limit) n) (c.share s) := by
  match n with
  | 0 => exact absurd h (by cases c <;> simp [Comp.height])
  | n + 1 =>
    rw [Comp.mapM]
    show Mirrors limit Inv s ([] ++ c.binders) _ _
    refine (Mirrors.pure s c).bind ?_
    match c with
    | .imm a | .prim1 _ a | .tupleGet _ a | .boxNew a | .unbox a =>
      exact (mirrors_imm a).last ((Mirrors.pure s _).last (.pure s _))
    | .prim2 _ a b | .boxSet a b =>
      exact (mirrors_imm a).last ((mirrors_imm b).last ((Mirrors.pure s _).last (.pure s _)))
    | .adt _ _ args | .tuple args | .call _ args | .callForeign _ args =>
      exact (Mirrors.mapM mirrors_imm args).last ((Mirrors.pure s _).last (.pure s _))
    | .branch cond thenArm elseArm =>
      rw [Comp.height] at h
      have hthen := thenArm.mapM_mirrors hI limit (n := n) (by omega) s
      have helse := elseArm.mapM_mirrors hI limit (n := n) (by omega) (thenArm.share s).2
      exact (mirrors_imm cond).bind (hthen.bind (helse.last ((Mirrors.pure _ _).last (.pure _ _))))
    | .fail _ => exact (Mirrors.pure s _).last (.pure s _)

theorem Binding.mapM_mirrors (hI : Invariant Inv) (limit : Nat) (bs : List Binding) {n : Nat}
    (h : Binding.heights bs ≤ n) (s : State) :
    Mirrors limit Inv s (Binding.binders bs) (bs.mapM (Binding.mapM (mapper limit) n))
      (Binding.shares bs s) := by
  match bs, n with
  | [], _ => exact .pure s []
  | ⟨id, comp, span⟩ :: bs, 0 =>
    rw [Binding.heights, Binding.height] at h
    omega
  | ⟨id, comp, span⟩ :: bs, n + 1 =>
    rw [Binding.heights, Binding.height] at h
    have hcomp := comp.mapM_mirrors hI limit (n := n) (by omega) s
    have hbs := Binding.mapM_mirrors hI limit bs (n := n + 1) (by omega)
      ((comp.share s).2.register ⟨id, (comp.share s).1, span⟩)
    rw [List.mapM_cons, Binding.mapM]
    show Mirrors limit Inv s (comp.binders ++ ([id] ++ Binding.binders bs)) _ _
    rw [← List.append_assoc]
    refine Mirrors.bind (a := ⟨id, (comp.share s).1, span⟩) ?_ (hbs.last (.pure _ _))
    show Mirrors limit Inv s ([] ++ (comp.binders ++ [id])) _ _
    refine (Mirrors.pure s _).bind (hcomp.bind ?_)
    exact mirrors_leaveBinding hI ⟨id, (comp.share s).1, span⟩

theorem Expr.mapM_mirrors (hI : Invariant Inv) (limit : Nat) (e : Expr) {n : Nat} (h : e.height ≤ n)
    (s : State) : Mirrors limit Inv s e.binders (e.mapM (mapper limit) n) (e.share s) := by
  match e, n with
  | e, 0 => exact absurd h (by cases e <;> simp [Expr.height])
  | .letIn kind bs body, n + 1 =>
    rw [Expr.height] at h
    have hbs := Binding.mapM_mirrors hI limit bs (n := n) (by omega) (s.push kind)
    have hbody := body.mapM_mirrors hI limit (n := n) (by omega) (Binding.shares bs (s.push kind)).2
    -- the region of this let is still there when its parts are mapped
    have hregions : (body.share (Binding.shares bs (s.push kind)).2).2.regions ≠ [] := by
      obtain ⟨keys, hf⟩ := (Binding.shares_opened bs (opened_push s kind)).regions
      rw [(body.share_table _).2, hf]
      exact List.cons_ne_nil _ _
    rw [Expr.mapM]
    show Mirrors limit Inv s ([] ++ (Binding.binders bs ++ body.binders)) _ _
    refine (mirrors_enterLet hI kind bs body).bind ?_
    refine hbs.bind (hbody.last ((Mirrors.pure _ _).last ?_))
    exact mirrors_leaveLet hI hregions kind _ _
  | .seq comp rest, n + 1 =>
    rw [Expr.height] at h
    have hcomp := comp.mapM_mirrors hI limit (n := n) (by omega) s
    have hrest := rest.mapM_mirrors hI limit (n := n) (by omega) (comp.share s).2
    rw [Expr.mapM]
    show Mirrors limit Inv s ([] ++ (comp.binders ++ rest.binders)) _ _
    refine (Mirrors.pure s (Expr.seq comp rest)).bind (hcomp.bind (hrest.last ?_))
    exact (Mirrors.pure _ _).last (.pure _ _)
  | .comp comp, n + 1 =>
    rw [Expr.height] at h
    have hcomp := comp.mapM_mirrors hI limit (n := n) (by omega) s
    rw [Expr.mapM]
    show Mirrors limit Inv s ([] ++ comp.binders) _ _
    refine (Mirrors.pure s (Expr.comp comp)).bind (hcomp.last ?_)
    exact (Mirrors.pure _ _).last (.pure _ _)

end

theorem Func.mapM_mirrors (hI : Invariant Inv) (limit n : Nat) (f : Func) (s : State) :
    Mirrors limit Inv s f.body.binders (f.mapM (mapper limit) n) (f.share s) := by
  have hbody := f.body.mapM_mirrors hI limit (Nat.le_add_left f.height n) s
  rw [Func.mapM]
  show Mirrors limit Inv s ([] ++ f.body.binders) _ _
  exact (Mirrors.pure s f).bind (hbody.last (.pure _ _))

theorem Func.mapM_mirrors_all (hI : Invariant Inv) (limit n : Nat) (fs : List Func) (s : State) :
    Mirrors limit Inv s (fs.flatMap fun f => f.body.binders) (fs.mapM (Func.mapM (mapper limit) n))
      (shareAll fs s) := by
  induction fs generalizing s with
  | nil => exact .pure s []
  | cons f fs ih =>
    rw [List.mapM_cons, List.flatMap_cons, shareAll_cons]
    exact (f.mapM_mirrors hI limit n s).bind ((ih (f.share s).2).last (.pure _ _))

/-- the identifiers that lets of the program bind -/
def Program.lets (p : Program) : List Ident :=
  (p.functions.flatMap fun f => f.body.binders) ++ p.body.binders

theorem Program.mapM_mirrors (hI : Invariant Inv) (limit n : Nat) (p : Program) (s : State) :
    Mirrors limit Inv s p.lets (p.mapM (mapper limit) n) (shareProgram p s) := by
  have hfunctions := Func.mapM_mirrors_all hI limit n p.functions s
  have hbody := p.body.mapM_mirrors hI limit (Nat.le_add_left p.body.height n)
    (shareAll p.functions s).2
  rw [Program.mapM]
  show Mirrors limit Inv s ([] ++ p.lets) _ _
  exact (Mirrors.pure s p).bind (hfunctions.bind (hbody.last (.pure _ _)))

/-- The check at the end finds nothing, whatever the stamps are. -/
theorem Sharing.walk_mirrors (hI : Invariant Inv) (limit : Nat) (p : Program) :
    Mirrors limit Inv .start p.lets (walk limit p) (shareProgram p .start) := by
  obtain ⟨ht, hf⟩ := shareProgram_table p .start
  exact (p.mapM_mirrors hI limit 0 .start).last ((mirrors_checkEmpty hf ht).last (.pure _ _))

end

end AnfWasm
