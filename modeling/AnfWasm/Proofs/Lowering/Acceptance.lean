import AnfWasm.Proofs.Lowering.Faults
import AnfWasm.Proofs.Lowering.Parts
import AnfWasm.Proofs.Scope.Checker

/-!
# Which programs are lowered

A program that keeps the scoping rules is lowered unless a recursive group mentions itself or a name
is exported twice.

The scopes of the rules end, and the locals of a frame do not, so a frame knows all that is in scope
(`Frame.Knows`).  Only the binders of a recursive group are in scope before they have a local, in
the right-hand sides of the group, where they are not mentioned.
-/

namespace AnfWasm

/-- the use finds what it names, with the callees `cs` -/
def Site.Resolves (cs : Lowering.Callees) (Δ : List Ident) : Site → Prop
  | .operand x => InScope Δ x
  | .call f n => ∃ c, Lowering.Callable cs false f n c
  | .callForeign f n => ∃ c, Lowering.Callable cs true f n c

namespace Lowering

open Wasm

/-! ### operands -/

/-- the stamp has a local -/
def Frame.Knows (fr : Frame) (n : UInt32) : Prop := ∃ i, fr.slots.lookup n = some i

theorem Frame.knows_bind {fr : Frame} {x : Ident} {n : UInt32} :
    (fr.bind x).Knows n ↔ n = x.stamp ∨ fr.Knows n := by
  show (∃ i, ((x.stamp, fr.count) :: fr.slots).lookup n = some i) ↔ _
  rw [List.lookup_cons]
  by_cases hn : n = x.stamp
  · rw [beq_iff_eq.mpr hn]
    exact ⟨fun _ => .inl hn, fun _ => ⟨_, rfl⟩⟩
  · rw [beq_false_of_ne hn]
    exact ⟨.inr, fun h => h.resolve_left hn⟩

theorem Frame.knows_ofParams {params : List Ident} {n : UInt32} (h : n ∈ stamps params) :
    (Frame.ofParams params).Knows n := by
  have hall : ∀ (xs : List Ident) (fr : Frame), n ∈ stamps xs ∨ fr.Knows n →
      (xs.foldl Frame.bind fr).Knows n := by
    intro xs
    induction xs with
    | nil => exact fun fr h => h.resolve_left List.not_mem_nil
    | cons x xs ih =>
      intro fr h
      refine ih _ ?_
      rw [Frame.knows_bind, ← or_assoc, or_comm (b := n = x.stamp), ← List.mem_cons, ← stamps_cons]
      exact h
  exact hall params .start (.inl h)

section
variable {cs : Callees} {fr : Frame}

theorem lowerImm_known {a : Imm} (h : ∀ x, a = .id x → fr.Knows x.stamp) :
    ∃ code, lowerImm a fr = .ok code fr := by
  cases a with
  | const c => exact ⟨_, rfl⟩
  | id x =>
    obtain ⟨i, hi⟩ := h x rfl
    have hget : (get : Lower Frame) fr = .ok fr fr := rfl
    exact ⟨[.localGet i], by rw [lowerImm, bind_of_ok hget, hi]; rfl⟩

theorem lowerImms_known {args : List Imm} (h : ∀ x, Imm.id x ∈ args → fr.Knows x.stamp) :
    ∃ code, lowerImms args fr = .ok code fr := by
  induction args with
  | nil => exact ⟨_, rfl⟩
  | cons a args ih =>
    obtain ⟨first, h1⟩ := lowerImm_known fun x hx => h x (hx ▸ List.mem_cons_self)
    obtain ⟨rest, h2⟩ := ih fun x hx => h x (List.mem_cons_of_mem _ hx)
    exact ⟨first ++ rest, by rw [lowerImms, bind_of_ok h1, bind_of_ok h2]; rfl⟩

theorem storeFields_known {fields : List Field} (index : Nat)
    (h : ∀ x, Field.imm (.id x) ∈ fields → fr.Knows x.stamp) :
    ∃ code, storeFields index fields fr = .ok code fr := by
  induction fields generalizing index with
  | nil => exact ⟨_, rfl⟩
  | cons f fields ih =>
    obtain ⟨value, h1⟩ : ∃ code, lowerField f fr = .ok code fr := by
      cases f with
      | const n => exact ⟨_, rfl⟩
      | imm a => exact lowerImm_known fun x hx => h x (hx ▸ List.mem_cons_self)
    obtain ⟨rest, h2⟩ := ih (index + 1) fun x hx => h x (List.mem_cons_of_mem _ hx)
    exact ⟨_, by rw [storeFields, bind_of_ok h1, bind_of_ok h2]; rfl⟩

theorem allocate_known {fields : List Field}
    (h : ∀ x, Field.imm (.id x) ∈ fields → fr.Knows x.stamp) :
    ∃ code, allocate fields fr = .ok code fr := by
  obtain ⟨stores, h1⟩ := storeFields_known 0 h
  exact ⟨_, by rw [allocate, bind_of_ok h1]; rfl⟩

theorem lowerCall_known {foreign : Bool} {f : Ident} {args : List Imm} {c : Callee}
    (hc : Callable cs foreign f args.length c) (h : ∀ x, Imm.id x ∈ args → fr.Knows x.stamp) :
    ∃ code, lowerCall cs foreign f args fr = .ok code fr := by
  have h1 : callee cs foreign f args.length fr = .ok c fr := by
    simp only [callee, hc.found, hc.foreign_eq, hc.arity_eq, ne_eq, not_true, if_false]
    rfl
  obtain ⟨push, h2⟩ := lowerImms_known h
  exact ⟨_, by rw [lowerCall, bind_of_ok h1, bind_of_ok h2]; rfl⟩

/-- what is neither a call nor a branch is lowered when its operands have locals -/
theorem lowerComp_known {c : Comp} (hc : c.IsPlain)
    (h : ∀ x, Imm.id x ∈ c.operands → fr.Knows x.stamp) :
    ∃ code fr', lowerComp cs c fr = .ok code fr' ∧ fr'.slots = fr.slots := by
  have hone : ∀ a, c.operands = [a] → ∃ code, lowerImm a fr = .ok code fr := fun a ha =>
    lowerImm_known fun x hx => h x (ha ▸ hx ▸ List.mem_singleton_self _)
  have htwo : ∀ a b, c.operands = [a, b] →
      (∃ code, lowerImm a fr = .ok code fr) ∧ ∃ code, lowerImm b fr = .ok code fr := fun a b hab =>
    ⟨lowerImm_known fun x hx => h x (by simp [hab, hx]),
      lowerImm_known fun x hx => h x (by simp [hab, hx])⟩
  cases c with
  | call | callForeign | branch => exact hc.elim
  | imm a =>
    obtain ⟨code, h1⟩ := hone a rfl
    exact ⟨code, fr, by rw [lowerComp, h1], rfl⟩
  | prim1 op a =>
    obtain ⟨code, h1⟩ := hone a rfl
    cases op with
    | not => exact ⟨_, fr, by rw [lowerComp, bind_of_ok h1]; rfl, rfl⟩
    | neg => exact ⟨_, fr, by rw [lowerComp, bind_of_ok h1]; rfl, rfl⟩
  | prim2 op a b =>
    obtain ⟨⟨left, h1⟩, right, h2⟩ := htwo a b rfl
    exact ⟨_, fr, by rw [lowerComp, bind_of_ok h1, bind_of_ok h2]; rfl, rfl⟩
  | adt typeTag variant args =>
    have hmem : ∀ x, Field.imm (.id x) ∈ adtFields typeTag variant args → fr.Knows x.stamp :=
      fun x hx => h x (by simpa [adtFields, Comp.operands] using hx)
    obtain ⟨code, h1⟩ := allocate_known hmem
    exact ⟨code, fr, by rw [lowerComp, h1], rfl⟩
  | tuple args =>
    have hmem : ∀ x, Field.imm (.id x) ∈ tupleFields args → fr.Knows x.stamp :=
      fun x hx => h x (by simpa [tupleFields, Comp.operands] using hx)
    obtain ⟨code, h1⟩ := allocate_known hmem
    exact ⟨code, fr, by rw [lowerComp, h1], rfl⟩
  | tupleGet index a =>
    obtain ⟨code, h1⟩ := hone a rfl
    exact ⟨_, fr, by rw [lowerComp, bind_of_ok h1]; rfl, rfl⟩
  | boxNew a =>
    have hmem : ∀ x, Field.imm (.id x) ∈ [Field.imm a] → fr.Knows x.stamp :=
      fun x hx => h x (by simpa [Comp.operands] using hx)
    obtain ⟨code, h1⟩ := allocate_known hmem
    exact ⟨code, fr, by rw [lowerComp, h1], rfl⟩
  | unbox a =>
    obtain ⟨code, h1⟩ := hone a rfl
    exact ⟨_, fr, by rw [lowerComp, bind_of_ok h1]; rfl, rfl⟩
  | boxSet a b =>
    obtain ⟨⟨cell, h1⟩, value, h2⟩ := htwo a b rfl
    exact ⟨_, fr, by rw [lowerComp, bind_of_ok h1, bind_of_ok h2]; rfl, rfl⟩
  | fail code => exact ⟨[.unreachable], _, rfl, rfl⟩

end

/-! ### expressions -/

/-- The right-hand side of a group that does not mention the group can do without it. -/
theorem resolves_outside {cs : Callees} {Γ : List Ident} {bs : List Binding} {b : Binding}
    (hb : b ∈ bs) (hm : ∀ x y, ¬GroupMention bs x y)
    (h : ∀ Δ t, b.comp.At ((ids bs).reverse ++ Γ) Δ t → t.Resolves cs Δ) :
    ∀ Δ t, b.comp.At Γ Δ t → t.Resolves cs Δ := by
  intro Δ t hat
  obtain ⟨inner, rfl, hbase⟩ := hat.rebase
  have hin := h _ t (hbase _)
  cases t with
  | call f n => exact hin
  | callForeign f n => exact hin
  | operand x =>
    have hx : x.stamp ∉ stamps (ids bs) := fun hx => hm b.id x ⟨b, hb, rfl, ⟨_, _, _, hat, rfl⟩, hx⟩
    have hin' := inScope_iff.mp hin
    rw [stamps_append, List.mem_append, mem_stamps_reverse_append] at hin'
    refine inScope_iff.mpr ?_
    rw [stamps_append, List.mem_append]
    rcases hin' with h1 | h1 | h1
    · exact .inl h1
    · exact absurd h1 hx
    · exact .inr h1

/-- How the lowering of a part ends that has this fault: all that had a local has one in the end,
and so have the stamps `more`. -/
def Settles {α : Type} (fr : Frame) (fault : Option (Ident × Ident)) (more : List UInt32) :
    EStateM.Result BodyError Frame α → Prop :=
  Outcome (fun _ fr' => (∀ n, n ∈ more ∨ fr.Knows n → fr'.Knows n) ∧ fault = none)
    (fun e => ∃ x y, e = .groupMention x y ∧ fault = some (x, y))

section
variable {α β : Type} {fr : Frame} {f₁ f₂ : Option (Ident × Ident)} {k k₁ : List UInt32}

theorem Settles.bind {x : Lower α} {f : α → Lower β} (h : Settles fr f₁ k₁ (x fr))
    (hf : ∀ a fr', (∀ n, n ∈ k₁ ∨ fr.Knows n → fr'.Knows n) → f₁ = none →
      Settles fr' f₂ k (f a fr')) : Settles fr (f₁.or f₂) k ((x >>= f) fr) := by
  have h' : Outcome (fun _ fr' => (∀ n, n ∈ k₁ ∨ fr.Knows n → fr'.Knows n) ∧ f₁ = none)
      (fun e => ∃ x y, e = .groupMention x y ∧ f₁.or f₂ = some (x, y)) (x fr) := by
    refine Outcome.imp h (fun _ _ hQ => hQ) ?_
    rintro e ⟨x, y, he, rfl⟩
    exact ⟨x, y, he, rfl⟩
  refine Outcome.bind h' fun a fr' ⟨hknows, hnone⟩ => ?_
  subst hnone
  refine Outcome.imp (hf a fr' hknows rfl) (fun _ fr'' ⟨hknows', hnone'⟩ => ⟨fun n hn => ?_, ?_⟩) ?_
  · rcases hn with hn | hn
    · exact hknows' n (.inl hn)
    · exact hknows' n (.inr (hknows n (.inr hn)))
  · exact hnone'
  · exact fun _ he => he

theorem Settles.map {x : Lower α} {g : α → β} (h : Settles fr f₁ k (x fr)) :
    Settles fr f₁ k ((x >>= fun a => pure (g a)) fr) :=
  Outcome.bind h fun _ _ hQ => hQ

/-- from the frame before a binder -/
theorem Settles.of_bind {id : Ident} {r : EStateM.Result BodyError Frame α}
    (h : Settles (fr.bind id) f₁ k r) : Settles fr f₁ (id.stamp :: k) r := by
  refine Outcome.imp h (fun _ fr' ⟨hknows, hnot⟩ => ⟨fun n hn => hknows n ?_, hnot⟩) fun _ he => he
  rw [Frame.knows_bind, or_left_comm, ← or_assoc, ← List.mem_cons]
  exact hn

end

theorem checkGroup_settles (kind : LetKind) (bs : List Binding) (fr : Frame) :
    Settles fr (groupFault? kind bs) [] (checkGroup kind bs fr) := by
  have hsame : ∀ n, n ∈ [] ∨ fr.Knows n → fr.Knows n := fun n hn => hn.resolve_left List.not_mem_nil
  cases kind with
  | sequential => exact ⟨hsame, rfl⟩
  | recursive =>
    unfold checkGroup groupFault?
    cases groupMention? bs with
    | none => exact ⟨hsame, rfl⟩
    | some xy => exact ⟨xy.1, xy.2, rfl, rfl⟩

/-- a computation without branches has no groups in it -/
theorem settles_of_ok {c : Comp} (hc : c.arms = [])
    {cs : Callees} {fr fr' : Frame} {code : Code} (h : lowerComp cs c fr = .ok code fr')
    (hslots : fr'.slots = fr.slots) : Settles fr c.fault? [] (lowerComp cs c fr) := by
  refine .of_ok h ⟨fun n hn => ?_, Comp.fault?_eq_none hc⟩
  obtain ⟨i, hi⟩ := hn.resolve_left List.not_mem_nil
  exact ⟨i, hslots ▸ hi⟩

mutual

theorem lowerComp_settles (c : Comp) {cs : Callees} {fr : Frame} {Γ : List Ident}
    (hat : ∀ Δ t, c.At Γ Δ t → t.Resolves cs Δ) (hfr : ∀ n ∈ stamps Γ, fr.Knows n) :
    Settles fr c.fault? [] (lowerComp cs c fr) := by
  have hknown : ∀ x, Imm.id x ∈ c.operands → fr.Knows x.stamp := fun x hx =>
    hfr _ (inScope_iff.mp (hat Γ _ (.operand hx)))
  have hplain : c.IsPlain → Settles fr c.fault? [] (lowerComp cs c fr) := by
    intro hc
    obtain ⟨code, fr', h1, hslots⟩ := lowerComp_known hc hknown
    exact settles_of_ok hc.arms h1 hslots
  match c with
  | .call f args =>
    obtain ⟨d, hd⟩ := hat Γ _ .call
    obtain ⟨code, h1⟩ := lowerCall_known hd hknown
    exact settles_of_ok rfl (by rw [lowerComp, h1]) rfl
  | .callForeign f args =>
    obtain ⟨d, hd⟩ := hat Γ _ .callForeign
    obtain ⟨code, h1⟩ := lowerCall_known hd hknown
    exact settles_of_ok rfl (by rw [lowerComp, h1]) rfl
  | .branch cond thenArm elseArm =>
    obtain ⟨condCode, h1⟩ := lowerImm_known fun x hx => hknown x (hx ▸ List.mem_singleton_self _)
    have h2 := lowerExpr_settles thenArm (fun Δ t ht => hat Δ t (.thenArm ht)) hfr
    rw [lowerComp, bind_of_ok h1]
    refine h2.bind fun code fr' hknows _ => ?_
    exact (lowerExpr_settles elseArm (fun Δ t ht => hat Δ t (.elseArm ht))
      fun n hn => hknows n (.inr (hfr n hn))).map
  | .imm _ | .prim1 _ _ | .prim2 _ _ _ | .adt _ _ _ | .tuple _ | .tupleGet _ _ | .boxNew _
  | .unbox _ | .boxSet _ _ | .fail _ => exact hplain trivial

theorem lowerBindings_settles (bs : List Binding) (kind : LetKind) {cs : Callees} {fr : Frame}
    {Γ : List Ident} (hat : ∀ Δ t, Binding.At kind Γ bs Δ t → t.Resolves cs Δ)
    (hfr : ∀ n ∈ stamps Γ, fr.Knows n) :
    Settles fr (Binding.fault? bs) (stamps (ids bs)) (lowerBindings cs bs fr) := by
  match bs with
  | [] => exact ⟨fun n hn => hn.resolve_left List.not_mem_nil, rfl⟩
  | ⟨id, c, span⟩ :: bs =>
    have h1 := lowerComp_settles c (fun Δ t ht => hat Δ t (.inl ht)) hfr
    rw [lowerBindings]
    refine h1.bind fun code fr' hknows _ => ?_
    -- the binder gets its local after its right-hand side
    show Settles fr' _ _ ((lowerBindings cs bs >>= fun rest =>
      pure (code ++ .localSet fr'.count :: rest)) (fr'.bind id))
    have hreach : ∀ n ∈ stamps (kind.reach Γ id), (fr'.bind id).Knows n := by
      intro n hn
      rw [Frame.knows_bind]
      cases kind with
      | sequential => exact (List.mem_cons.mp hn).imp_right fun hn => hknows n (.inr (hfr n hn))
      | recursive => exact .inr (hknows n (.inr (hfr n hn)))
    exact (lowerBindings_settles bs kind (fun Δ t ht => hat Δ t (.inr ht)) hreach).map.of_bind

theorem lowerExpr_settles (e : Expr) {cs : Callees} {fr : Frame} {Γ : List Ident}
    (hat : ∀ Δ t, e.At Γ Δ t → t.Resolves cs Δ) (hfr : ∀ n ∈ stamps Γ, fr.Knows n) :
    Settles fr e.fault? [] (lowerExpr cs e fr) := by
  match e with
  | .letIn kind bs body =>
    rw [lowerExpr]
    refine (checkGroup_settles kind bs fr).bind fun _ fr₁ hknows₁ hnone => ?_
    have hfr₁ : ∀ n ∈ stamps Γ, fr₁.Knows n := fun n hn => hknows₁ n (.inr (hfr n hn))
    have hrhs : ∀ Δ t, Binding.At kind Γ bs Δ t → t.Resolves cs Δ := by
      intro Δ t ht
      cases kind with
      | sequential => exact hat Δ t (Expr.at_let.mpr (.inl ht))
      | recursive =>
        obtain ⟨b, hb, hb'⟩ := Binding.at_recursive.mp ht
        exact resolves_outside hb (groupMention?_eq_none hnone)
          (fun Δ t ht => hat Δ t (.groupRhs hb ht)) Δ t hb'
    refine (lowerBindings_settles bs kind hrhs hfr₁).bind fun code fr₂ hknows₂ _ => ?_
    have hbody : ∀ n ∈ stamps ((ids bs).reverse ++ Γ), fr₂.Knows n := fun n hn =>
      hknows₂ n ((mem_stamps_reverse_append.mp hn).imp_right (hfr₁ n))
    exact (lowerExpr_settles body (fun Δ t ht => hat Δ t (.body ht)) hbody).map
  | .seq c rest =>
    rw [lowerExpr]
    refine (lowerComp_settles c (fun Δ t ht => hat Δ t (.seqComp ht)) hfr).bind
      fun code fr' hknows _ => ?_
    exact (lowerExpr_settles rest (fun Δ t ht => hat Δ t (.seqRest ht))
      fun n hn => hknows n (.inr (hfr n hn))).map
  | .comp c =>
    rw [lowerExpr]
    exact lowerComp_settles c (fun Δ t ht => hat Δ t (.comp ht)) hfr

end

/-! ### bodies -/

section
variable {cs : Callees}

theorem lowerBody_fault {params : List Ident} {body : Expr} (context : BodyError → Error)
    (hat : ∀ Δ t, body.At params.reverse Δ t → t.Resolves cs Δ) (b : Build) :
    Outcome (fun _ b' => b'.interner = b.interner ∧ body.fault? = none)
      (fun e => ∃ x y, e = context (.groupMention x y) ∧ body.fault? = some (x, y))
      (lowerBody cs params body context b) := by
  have hparams : ∀ n ∈ stamps params.reverse, (Frame.ofParams params).Knows n := by
    intro n hn
    rw [stamps, List.map_reverse, List.mem_reverse] at hn
    exact Frame.knows_ofParams hn
  have h := lowerExpr_settles body hat hparams
  unfold lowerBody
  cases hl : lowerExpr cs body (Frame.ofParams params) with
  | ok code fr =>
    rw [hl] at h
    exact ⟨rfl, h.2⟩
  | error e fr =>
    rw [hl] at h
    obtain ⟨x, y, rfl, hfault⟩ := h
    exact ⟨x, y, rfl, hfault⟩

theorem lowerBody_outcome {params : List Ident} {body : Expr} (context : BodyError → Error)
    (hat : ∀ Δ t, body.At params.reverse Δ t → t.Resolves cs Δ) (b : Build) :
    Outcome (fun _ _ => ∀ x y, ¬body.Cyclic x y)
      (fun e => ∃ x y, e = context (.groupMention x y) ∧ body.Cyclic x y)
      (lowerBody cs params body context b) := by
  have hfault := body.picks_fault?
  refine (lowerBody_fault context hat b).imp (fun _ _ ⟨_, hnone⟩ => ?_)
    fun e ⟨x, y, he, hsome⟩ => ?_
  · rwa [hnone] at hfault
  · rw [hsome] at hfault
    exact ⟨x, y, he, hfault⟩

theorem lowerFunc_outcome {f : Func} (hat : ∀ Δ t, f.At Δ t → t.Resolves cs Δ) (b : Build) :
    Outcome (fun d _ => d.exportName = (if f.exported then some f.id.name else none) ∧
        ∀ x y, ¬f.body.Cyclic x y)
      (fun e => ∃ x y, e = .inFunction f.id (.groupMention x y) ∧ f.body.Cyclic x y)
      (lowerFunc cs f b) := by
  refine (lowerBody_outcome (.inFunction f.id) hat b).bind fun ⟨code, count⟩ b₁ hnot => ?_
  exact .of_ok (bind_of_ok (intern_eq f.params.length b₁)) ⟨rfl, hnot⟩

/-- the names under which functions are exported -/
def exportedNames (fs : List Func) : List String := (fs.filter (·.exported)).map (·.id.name)

theorem exportedNames_cons (f : Func) (fs : List Func) : exportedNames (f :: fs) =
    (if f.exported then some f.id.name else none).toList ++ exportedNames fs := by
  cases h : f.exported <;> simp [exportedNames, h]

theorem lowerFuncs_outcome {fs : List Func}
    (hat : ∀ f ∈ fs, ∀ Δ t, f.At Δ t → t.Resolves cs Δ) (b : Build) :
    Outcome (fun ds _ => ds.filterMap (·.exportName) = exportedNames fs ∧
        ∀ f ∈ fs, ∀ x y, ¬f.body.Cyclic x y)
      (fun e => ∃ f ∈ fs, ∃ x y, e = .inFunction f.id (.groupMention x y) ∧ f.body.Cyclic x y)
      (lowerFuncs cs fs b) := by
  induction fs generalizing b with
  | nil => exact ⟨rfl, fun f hf => absurd hf List.not_mem_nil⟩
  | cons f fs ih =>
    have h1 := lowerFunc_outcome (hat f List.mem_cons_self) b
    refine (h1.imp (fun _ _ h => h) fun e he => ⟨f, List.mem_cons_self, he⟩).bind
      fun d b₁ ⟨hd, hnot⟩ => ?_
    have h2 := ih (fun g hg => hat g (List.mem_cons_of_mem _ hg)) b₁
    refine (h2.imp (fun _ _ h => h) fun e ⟨g, hg, he⟩ => ⟨g, List.mem_cons_of_mem _ hg, he⟩).bind
      fun ds b₂ ⟨hds, hnot'⟩ => ⟨?_, fun g hg => ?_⟩
    · rw [exportedNames_cons, ← hd, ← hds]
      cases h : d.exportName <;> simp [h]
    · rcases List.mem_cons.mp hg with rfl | hg
      · exact hnot
      · exact hnot' g hg

theorem lowerEntry_outcome {body : Expr} (hat : ∀ Δ t, body.At [] Δ t → t.Resolves cs Δ)
    (b : Build) :
    Outcome (fun d _ => d.exportName = some entryName ∧ ∀ x y, ¬body.Cyclic x y)
      (fun e => ∃ x y, e = .inEntry (.groupMention x y) ∧ body.Cyclic x y)
      (lowerEntry cs body b) := by
  have hat' : ∀ Δ t, body.At ([] : List Ident).reverse Δ t → t.Resolves cs Δ := hat
  refine (lowerBody_outcome .inEntry hat' b).bind fun ⟨code, count⟩ b₁ hnot => ?_
  exact .of_ok (bind_of_ok (intern_eq 0 b₁)) ⟨rfl, hnot⟩

end

/-! ### declarations -/

section
variable {cs : Callees} {b : Build}

theorem declare_new {x : Ident} (h : cs.lookup x.stamp = none) (c : Callee) :
    declare cs x c b = .ok ((x.stamp, c) :: cs) b := by
  rw [declare, h]
  rfl

/-- `cs'` are the callees `cs` and those with the stamps and arities of `new`. -/
structure Adds (foreign : Bool) (new : List (UInt32 × Nat)) (cs cs' : Callees) : Prop where
  keep : ∀ n, n ∉ new.map Prod.fst → cs'.lookup n = cs.lookup n
  declared : ∀ d ∈ new, ∃ c, cs'.lookup d.1 = some c ∧ c.arity = d.2 ∧ c.foreign = foreign

theorem Adds.nil {foreign : Bool} : Adds foreign [] cs cs :=
  ⟨fun _ _ => rfl, fun _ hd => absurd hd List.not_mem_nil⟩

theorem Adds.cons {new : List (UInt32 × Nat)} {cs' : Callees} {n : UInt32} {c : Callee}
    (h : Adds c.foreign new ((n, c) :: cs) cs') (hn : n ∉ new.map Prod.fst) :
    Adds c.foreign ((n, c.arity) :: new) cs cs' := by
  refine ⟨fun k hk => ?_, fun d hd => ?_⟩
  · rw [List.map_cons, List.mem_cons, not_or] at hk
    rw [h.keep k hk.2, List.lookup_cons, beq_false_of_ne hk.1]
  · rcases List.mem_cons.mp hd with rfl | hd
    · refine ⟨c, ?_, rfl, rfl⟩
      rw [h.keep n hn, List.lookup_cons, beq_self_eq_true]
    · exact h.declared d hd

/-- the stamps are distinct and have no callee yet -/
def New (cs : Callees) (ns : List UInt32) : Prop := ns.Nodup ∧ ∀ n ∈ ns, cs.lookup n = none

theorem New.tail {n : UInt32} {ns : List UInt32} (h : New cs (n :: ns)) (c : Callee) :
    New ((n, c) :: cs) ns := by
  obtain ⟨hn, hd⟩ := List.nodup_cons.mp h.1
  refine ⟨hd, fun k hk => ?_⟩
  have hne : k ≠ n := fun he => hn (he ▸ hk)
  rw [List.lookup_cons, beq_false_of_ne hne]
  exact h.2 k (List.mem_cons_of_mem _ hk)

theorem declareImports_succeeds {is : List Import} (index : Nat)
    (h : New cs (is.map fun i => i.id.stamp)) :
    ∃ r b', declareImports cs index is b = .ok r b' ∧
      Adds true (is.map fun i => (i.id.stamp, i.arity.toNat)) cs r.1 := by
  induction is generalizing cs index b with
  | nil => exact ⟨(cs, []), b, rfl, .nil⟩
  | cons i is ih =>
    have h1 := declare_new (h.2 _ List.mem_cons_self) (b := b) ⟨index, i.arity.toNat, true⟩
    obtain ⟨t, b₁, h2⟩ : ∃ t b₁, intern i.arity.toNat b = .ok t b₁ := ⟨_, _, intern_eq _ b⟩
    obtain ⟨⟨cs', ds⟩, b', h3, hadds⟩ := ih (b := b₁) (index + 1) (h.tail _)
    refine ⟨(cs', ⟨i.module, i.name, i.arity, t⟩ :: ds), b', ?_,
      Adds.cons (c := ⟨index, i.arity.toNat, true⟩) hadds ?_⟩
    · rw [declareImports, bind_of_ok h1, bind_of_ok h2, bind_of_ok h3]
      rfl
    · rw [List.map_map]
      exact (List.nodup_cons.mp h.1).1

theorem declareFuncs_succeeds {fs : List Func} (index : Nat)
    (h : New cs (fs.map fun f => f.id.stamp)) :
    ∃ cs', declareFuncs cs index fs b = .ok cs' b ∧
      Adds false (fs.map fun f => (f.id.stamp, f.params.length)) cs cs' := by
  induction fs generalizing cs index with
  | nil => exact ⟨cs, rfl, .nil⟩
  | cons f fs ih =>
    have h1 := declare_new (h.2 _ List.mem_cons_self) (b := b) ⟨index, f.params.length, false⟩
    obtain ⟨cs', h2, hadds⟩ := ih (index + 1) (h.tail _)
    refine ⟨cs', by rw [declareFuncs, bind_of_ok h1, h2],
      Adds.cons (c := ⟨index, f.params.length, false⟩) hadds ?_⟩
    rw [List.map_map]
    exact (List.nodup_cons.mp h.1).1

end

/-! ### exports -/

theorem repeated?_eq_none {seen names : List String} (h : repeated? seen names = none) :
    names.Nodup ∧ ∀ n ∈ names, n ∉ seen := by
  induction names generalizing seen with
  | nil => exact ⟨List.nodup_nil, fun n hn => absurd hn List.not_mem_nil⟩
  | cons name names ih =>
    rw [repeated?] at h
    by_cases hc : seen.contains name
    · rw [if_pos hc] at h
      exact absurd h (by simp)
    · rw [if_neg hc] at h
      obtain ⟨hd, hn⟩ := ih h
      have hfirst : name ∉ names := fun hmem => hn name hmem List.mem_cons_self
      refine ⟨List.nodup_cons.mpr ⟨hfirst, hd⟩, fun n hmem => ?_⟩
      rcases List.mem_cons.mp hmem with rfl | hmem
      · exact fun hs => hc (List.contains_iff_mem.mpr hs)
      · exact fun hs => hn n hmem (List.mem_cons_of_mem _ hs)

theorem repeated?_eq_some {seen names : List String} {name : String}
    (h : repeated? seen names = some name) : 2 ≤ (names ++ seen).count name := by
  induction names generalizing seen with
  | nil => exact absurd h (by simp [repeated?])
  | cons n names ih =>
    rw [repeated?] at h
    by_cases hc : seen.contains n
    · rw [if_pos hc] at h
      obtain rfl := Option.some.inj h
      have hseen := List.one_le_count_iff.mpr (List.contains_iff_mem.mp hc)
      rw [List.cons_append, List.count_cons_self, List.count_append]
      omega
    · rw [if_neg hc] at h
      have hp : (names ++ n :: seen).Perm (n :: names ++ seen) := List.perm_middle
      rw [← hp.count_eq]
      exact ih h

end Lowering

/-! ### programs -/

section
open Lowering

/-- the names of the exported functions, the entry and the memory -/
def Program.exportNames (p : Program) : List String :=
  exportedNames p.functions ++ [Wasm.entryName, Wasm.memoryName]

/-- the right-hand side of `x` mentions `y` in a recursive group somewhere in the program -/
def Program.Cyclic (p : Program) (x y : Ident) : Prop :=
  (∃ f ∈ p.functions, f.body.Cyclic x y) ∨ p.body.Cyclic x y

/-- What an error says about the program.  There are no other errors after the check. -/
def Lowering.Error.Genuine (p : Program) : Error → Prop
  | .inFunction f (.groupMention x y) => ∃ g ∈ p.functions, g.id = f ∧ g.body.Cyclic x y
  | .inEntry (.groupMention x y) => p.body.Cyclic x y
  | .exportedTwice name => 2 ≤ p.exportNames.count name
  | _ => False

variable {p : Program}

theorem Program.WellFormed.import_ne_func (h : p.WellFormed) {i : Import} (hi : i ∈ p.imports)
    {f : Func} (hf : f ∈ p.functions) : i.id.stamp ≠ f.id.stamp := by
  have hb := h.bound_once
  rw [Program.binders, stamps_append, stamps_append, stamps_append] at hb
  have hd := hb.of_append_left.of_append_left
  intro he
  refine List.disjoint_of_nodup_append hd (a := i.id.stamp) ?_ ?_
  · exact mem_stamps.mpr ⟨i.id, List.mem_map.mpr ⟨i, hi, rfl⟩, rfl⟩
  · exact mem_stamps.mpr ⟨f.id, List.mem_map.mpr ⟨f, hf, rfl⟩, he.symm⟩

/-- every use of a well-formed program finds what it names once all is declared -/
theorem Program.WellFormed.resolves (h : p.WellFormed) {cs₁ cs : Callees}
    (himports : Adds true (p.imports.map fun i => (i.id.stamp, i.arity.toNat)) [] cs₁)
    (hfuncs : Adds false (p.functions.map fun f => (f.id.stamp, f.params.length)) cs₁ cs)
    {Δ : List Ident} {t : Site} (hat : p.At Δ t) : t.Resolves cs Δ := by
  cases t with
  | operand x => exact h.operand hat
  | call f n =>
    obtain ⟨g, hg, hs, hn⟩ := h.call hat
    obtain ⟨c, hc, harity, hforeign⟩ := hfuncs.declared _ (List.mem_map.mpr ⟨g, hg, rfl⟩)
    exact ⟨c, hs ▸ hc, hforeign, harity.trans hn⟩
  | callForeign f n =>
    obtain ⟨i, hi, hs, hn⟩ := h.callForeign hat
    obtain ⟨c, hc, harity, hforeign⟩ := himports.declared _ (List.mem_map.mpr ⟨i, hi, rfl⟩)
    have hnot : i.id.stamp ∉
        (p.functions.map fun f => (f.id.stamp, f.params.length)).map Prod.fst := by
      rw [List.map_map, List.mem_map]
      rintro ⟨g, hg, he⟩
      exact h.import_ne_func hi hg he.symm
    exact ⟨c, hs ▸ (hfuncs.keep _ hnot).trans hc, hforeign, harity.trans hn⟩

theorem Program.WellFormed.declares_all (h : p.WellFormed) (b : Build) :
    ∃ r b₁ cs, declareImports [] 0 p.imports b = .ok r b₁ ∧
      declareFuncs r.1 p.imports.length p.functions b₁ = .ok cs b₁ ∧
      ∀ Δ t, p.At Δ t → t.Resolves cs Δ := by
  have himp : New [] (p.imports.map fun i => i.id.stamp) := ⟨h.imports_nodup, fun _ _ => rfl⟩
  obtain ⟨r, b₁, h1, himports⟩ := declareImports_succeeds (b := b) 0 himp
  have hnew : New r.1 (p.functions.map fun f => f.id.stamp) := by
    refine ⟨h.functions_nodup, fun n hn => ?_⟩
    obtain ⟨f, hf, rfl⟩ := List.mem_map.mp hn
    rw [himports.keep]
    · rfl
    · rw [List.map_map, List.mem_map]
      rintro ⟨i, hi, he⟩
      exact h.import_ne_func hi hf he
  obtain ⟨cs, h2, hfuncs⟩ := declareFuncs_succeeds (b := b₁) p.imports.length hnew
  exact ⟨r, b₁, cs, h1, h2, fun Δ t hat => h.resolves himports hfuncs hat⟩

theorem Lowering.lowerProgram_outcome (h : p.WellFormed) (b : Build) :
    Outcome (fun _ _ => (∀ x y, ¬p.Cyclic x y) ∧ p.exportNames.Nodup) (Error.Genuine p)
      (lowerProgram p b) := by
  obtain ⟨⟨cs₁, imports⟩, b₁, cs, h1, h2, hres⟩ := h.declares_all b
  have hfuncs := lowerFuncs_outcome (fun f hf Δ t hat => hres Δ t (.inl ⟨f, hf, hat⟩)) b₁
  have hdeclared : lowerProgram p b = _ := (bind_of_ok h1).trans (bind_of_ok h2)
  rw [hdeclared]
  refine (hfuncs.imp (fun _ _ hQ => hQ) ?_).bind fun ds b₂ ⟨hnames, hnot⟩ => ?_
  · rintro e ⟨f, hf, x, y, rfl, hc⟩
    exact ⟨f, hf, rfl, hc⟩
  have hentry := lowerEntry_outcome (fun Δ t hat => hres Δ t (.inr hat)) b₂
  refine (hentry.imp (fun _ _ hQ => hQ) ?_).bind fun entry b₃ ⟨hname, hnot'⟩ => ?_
  · rintro e ⟨x, y, rfl, hc⟩
    exact hc
  have hget : (get : Make Build) b₃ = .ok b₃ b₃ := rfl
  rw [bind_of_ok hget]
  have hexports : Wasm.Module.exportNames ⟨p.source, b₃.interner.types, imports, ds ++ [entry]⟩ ++
      [Wasm.memoryName] = p.exportNames := by
    rw [Wasm.Module.exportNames, List.filterMap_append, hnames]
    simp [hname, Program.exportNames]
  cases hr : repeated? [Wasm.memoryName]
      (Wasm.Module.exportNames ⟨p.source, b₃.interner.types, imports, ds ++ [entry]⟩) with
  | some name =>
    show 2 ≤ p.exportNames.count name
    rw [← hexports]
    exact repeated?_eq_some hr
  | none =>
    obtain ⟨hd, hmem⟩ := repeated?_eq_none hr
    refine ⟨fun x y hc => hc.elim (fun ⟨f, hf, hc⟩ => hnot f hf x y hc) (hnot' x y), ?_⟩
    rw [← hexports]
    exact hd.append (List.nodup_singleton _) fun n hn => hmem n hn

theorem Lowering.Error.Genuine.reason {e : Error} (h : e.Genuine p) :
    (∃ x y, p.Cyclic x y) ∨ ¬p.exportNames.Nodup := by
  match e, h with
  | .inFunction f (.groupMention x y), ⟨g, hg, _, hc⟩ => exact .inl ⟨x, y, .inl ⟨g, hg, hc⟩⟩
  | .inEntry (.groupMention x y), hc => exact .inl ⟨x, y, .inr hc⟩
  | .exportedTwice name, htwice =>
    refine .inr fun hd => ?_
    have hone := List.nodup_iff_count_le_one.mp hd name
    exact absurd htwice (Nat.not_le.mpr (Nat.lt_succ_of_le hone))

/-- **After the check, lowering fails for two reasons only**: a recursive group mentions itself, or
a name is exported twice.  The error says where. -/
theorem Program.lower_error_iff (hp : p.check = .ok ()) :
    ((∃ e, p.lower.1 = .error e) ↔ (∃ x y, p.Cyclic x y) ∨ ¬p.exportNames.Nodup) ∧
      ∀ e, p.lower.1 = .error e → e.Genuine p := by
  have h := lowerProgram_outcome (p.check_ok_iff.mp hp) .start
  unfold Program.lower
  cases hl : lowerProgram p .start with
  | ok m b =>
    rw [hl] at h
    refine ⟨⟨fun ⟨e, he⟩ => absurd he (by simp), ?_⟩, fun e he => absurd he (by simp)⟩
    rintro (⟨x, y, hc⟩ | hd)
    · exact absurd hc (h.1 x y)
    · exact absurd h.2 hd
  | error e b =>
    rw [hl] at h
    refine ⟨⟨fun _ => h.reason, fun _ => ⟨e, rfl⟩⟩, fun e' he => ?_⟩
    exact Except.error.inj he ▸ h

/-- the group of `x` and `y` mentions `y` in an arm of a branch in an arm -/
def knot : Program where
  source := none
  imports := [⟨⟨"log", 0⟩, "env", "log", 1⟩]
  functions := [{
    id := ⟨"f", 1⟩
    params := [⟨"a", 2⟩]
    body := .comp (.branch (.id ⟨"a", 2⟩) (.comp (.imm .unit))
      (.letIn .recursive [
          ⟨⟨"x", 3⟩, .branch (.id ⟨"a", 2⟩) (.comp (.callForeign ⟨"log", 0⟩ [.id ⟨"y", 4⟩]))
            (.comp (.imm .unit)), none⟩,
          ⟨⟨"y", 4⟩, .tuple [.int 1], none⟩]
        (.comp (.imm (.id ⟨"x", 3⟩)))))
    exported := true
    span := none }]
  body := .comp (.call ⟨"f", 1⟩ [.int 1])

theorem Program.lower_error_iff_knot : knot.check = .ok () ∧ knot.exportNames.Nodup ∧
    ∃ x y, knot.Cyclic x y := by
  have hcheck : knot.check = .ok () := rfl
  have hd : knot.exportNames.Nodup := by decide
  have h := (Program.lower_error_iff hcheck).1.mp ⟨_, rfl⟩
  exact ⟨hcheck, hd, h.resolve_right fun hn => hn hd⟩

end

end AnfWasm
