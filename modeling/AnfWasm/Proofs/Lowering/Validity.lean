import AnfWasm.Proofs.Lowering.Parts

/-!
# Lowered modules are valid

The code of a computation or an expression takes no words and leaves one (`CompCode.takes`,
`ExprCode.takes`), whatever the program is that it comes from: the locals that it names were
allotted before, and the functions that it calls were declared with the number of arguments that it
pushes for them.
-/

namespace AnfWasm.Lowering

open Wasm Wasm.Validation Wasm.Validation.Checker

/-! ### locals -/

/-- the locals of a frame are those below its count -/
def Frame.Bounded (fr : Frame) : Prop := ∀ n i, fr.slots.lookup n = some i → i < fr.count

theorem bounded_start : Frame.start.Bounded := fun n i h => absurd h (by simp [Frame.start])

theorem Frame.Bounded.bind {fr : Frame} (h : fr.Bounded) (x : Ident) : (fr.bind x).Bounded := by
  intro n i hi
  rw [Frame.count_bind]
  change ((x.stamp, fr.count) :: fr.slots).lookup n = some i at hi
  rw [List.lookup_cons] at hi
  by_cases hn : n = x.stamp
  · rw [beq_iff_eq.mpr hn] at hi
    have := Option.some.inj hi
    omega
  · rw [beq_false_of_ne hn] at hi
    have := h n i hi
    omega

theorem bounded_ofParams (params : List Ident) : (Frame.ofParams params).Bounded := by
  have h : ∀ (xs : List Ident) (fr : Frame), fr.Bounded → (xs.foldl Frame.bind fr).Bounded := by
    intro xs
    induction xs with
    | nil => exact fun fr h => h
    | cons x xs ih => exact fun fr h => ih _ (h.bind x)
  exact h params .start bounded_start

mutual

theorem CompCode.bounded {cs : Callees} {c : Comp} {fr fr' : Frame} {code : Code}
    (h : CompCode cs c fr code fr') (hb : fr.Bounded) : fr'.Bounded := by
  match h with
  | .branch _ h1 h2 => exact h2.bounded (h1.bounded hb)
  | .fail => exact hb
  | .imm _ | .not _ | .neg _ | .prim2 _ _ | .adt _ | .tuple _ | .tupleGet _ | .boxNew _
  | .unbox _ | .boxSet _ _ | .call _ _ | .callForeign _ _ => exact hb

theorem BindingsCode.bounded {cs : Callees} {bs : List Binding} {fr fr' : Frame} {code : Code}
    (h : BindingsCode cs bs fr code fr') (hb : fr.Bounded) : fr'.Bounded := by
  match h with
  | .nil => exact hb
  | .cons h1 h2 => exact h2.bounded ((h1.bounded hb).bind _)

theorem ExprCode.bounded {cs : Callees} {e : Expr} {fr fr' : Frame} {code : Code}
    (h : ExprCode cs e fr code fr') (hb : fr.Bounded) : fr'.Bounded := by
  match h with
  | .letIn h1 h2 => exact h2.bounded (h1.bounded hb)
  | .seq h1 h2 => exact h2.bounded (h1.bounded hb)
  | .comp h1 => exact h1.bounded hb

end

/-! ### operands -/

/-- What lowered code refers to is there. -/
structure Serves (ctx : Context) (cs : Callees) : Prop where
  heap : heapPointer < ctx.globals
  callee : ∀ {foreign f count c}, Callable cs foreign f count c →
    ctx.funcType? c.index = some ⟨count⟩

section
variable {ctx : Context} {cs : Callees} {fr : Frame}

theorem Pushes.takes {a : Imm} {code : Code} (h : Pushes fr a code) (hb : fr.Bounded)
    (hc : fr.count ≤ ctx.locals) : Takes ctx 0 1 (Op.ofCode code) := by
  cases h with
  | const c => exact .const _
  | slot hi => exact .localGet (Nat.lt_of_lt_of_le (hb _ _ hi) hc)

theorem PushesAll.takes {args : List Imm} {code : Code} (h : PushesAll fr args code)
    (hb : fr.Bounded) (hc : fr.count ≤ ctx.locals) :
    Takes ctx 0 args.length (Op.ofCode code) := by
  induction h with
  | nil => exact .nil
  | @cons a as code rest ha _ ih =>
    rw [Op.ofCode_append, List.length_cons, Nat.add_comm]
    exact (ha.takes hb hc).append (ih.below 1)

theorem PushesField.takes {f : Field} {code : Code} (h : PushesField fr f code) (hb : fr.Bounded)
    (hc : fr.count ≤ ctx.locals) : Takes ctx 0 1 (Op.ofCode code) := by
  cases h with
  | const n => exact .const _
  | imm ha => exact ha.takes hb hc

theorem Stores.takes (hs : Serves ctx cs) {index : Nat} {fields : List Field} {code : Code}
    (h : Stores fr index fields code) (hb : fr.Bounded) (hc : fr.count ≤ ctx.locals) :
    Takes ctx 0 0 (Op.ofCode code) := by
  induction h with
  | nil => exact .nil
  | @cons index f fs value rest hf _ ih =>
    rw [List.cons_append, Op.ofCode_cons, Op.ofCode_append, Op.ofCode_cons]
    have hstore := (Takes.store (wordSize * index)).append ih
    exact (Takes.globalGet hs.heap).append (((hf.takes hb hc).below 1).append hstore)

theorem Allocates.takes (hs : Serves ctx cs) {fields : List Field} {code : Code}
    (h : Allocates fr fields code) (hb : fr.Bounded) (hc : fr.count ≤ ctx.locals) :
    Takes ctx 0 1 (Op.ofCode code) := by
  cases h with
  | mk hstores =>
    have hmove : Takes ctx 0 0 (Op.ofCode [.globalGet heapPointer,
        .const (.ofNat (wordSize * fields.length)), .binary .add, .globalSet heapPointer]) :=
      (Takes.globalGet hs.heap).append (((Takes.const _).below 1).append
        ((Takes.binary _).append (.globalSet hs.heap)))
    rw [List.cons_append, Op.ofCode_cons, Op.ofCode_append]
    exact (Takes.globalGet hs.heap).append (((hstores.takes hs hb hc).append hmove).below 1)

end

/-! ### expressions -/

mutual

theorem CompCode.takes {ctx : Context} {cs : Callees} (hs : Serves ctx cs) {c : Comp}
    {fr fr' : Frame} {code : Code} (h : CompCode cs c fr code fr') (hb : fr.Bounded)
    (hc : fr'.count ≤ ctx.locals) : Takes ctx 0 1 (Op.ofCode code) := by
  match h with
  | .imm ha => exact ha.takes hb hc
  | .not ha =>
    rw [Op.ofCode_append]
    exact (ha.takes hb hc).append .eqz
  | .neg ha =>
    rw [List.cons_append, Op.ofCode_cons, Op.ofCode_append]
    exact (Takes.const _).append (((ha.takes hb hc).below 1).append (.binary _))
  | .prim2 ha hb' =>
    rw [Op.ofCode_append, Op.ofCode_append]
    exact ((ha.takes hb hc).append ((hb'.takes hb hc).below 1)).append (.binary _)
  | .adt ha => exact ha.takes hs hb hc
  | .tuple ha => exact ha.takes hs hb hc
  | .tupleGet ha =>
    rw [Op.ofCode_append]
    exact (ha.takes hb hc).append (.load _)
  | .boxNew ha => exact ha.takes hs hb hc
  | .unbox ha =>
    rw [Op.ofCode_append]
    exact (ha.takes hb hc).append (.load _)
  | .boxSet ha hb' =>
    rw [Op.ofCode_append, Op.ofCode_append]
    exact ((ha.takes hb hc).append ((hb'.takes hb hc).below 1)).append
      ((Takes.store _).append (.const _))
  | .call hf hargs =>
    rw [Op.ofCode_append]
    exact (hargs.takes hb hc).append (.call (hs.callee hf))
  | .callForeign hf hargs =>
    rw [Op.ofCode_append]
    exact (hargs.takes hb hc).append (.call (hs.callee hf))
  | .branch ha h1 h2 =>
    have hc₁ := Nat.le_trans h2.allots.count hc
    have hc₀ := Nat.le_trans h1.allots.count hc₁
    rw [Op.ofCode_append, Op.ofCode_singleton, Op.ofInstr_ifElse]
    exact (ha.takes hb hc₀).append
      (.branch (h1.takes hs hb hc₁) (h2.takes hs (h1.bounded hb) hc))
  | .fail => exact .unreachable 0 1

theorem BindingsCode.takes {ctx : Context} {cs : Callees} (hs : Serves ctx cs) {bs : List Binding}
    {fr fr' : Frame} {code : Code} (h : BindingsCode cs bs fr code fr') (hb : fr.Bounded)
    (hc : fr'.count ≤ ctx.locals) : Takes ctx 0 0 (Op.ofCode code) := by
  match h with
  | .nil => exact .nil
  | .cons h1 h2 =>
    have hc₁ := Nat.le_trans h2.allots.count hc
    rw [Frame.count_bind] at hc₁
    rw [Op.ofCode_append, Op.ofCode_cons]
    exact (h1.takes hs hb (Nat.le_of_succ_le hc₁)).append
      ((Takes.localSet hc₁).append (h2.takes hs ((h1.bounded hb).bind _) hc))

theorem ExprCode.takes {ctx : Context} {cs : Callees} (hs : Serves ctx cs) {e : Expr}
    {fr fr' : Frame} {code : Code} (h : ExprCode cs e fr code fr') (hb : fr.Bounded)
    (hc : fr'.count ≤ ctx.locals) : Takes ctx 0 1 (Op.ofCode code) := by
  match h with
  | .letIn h1 h2 =>
    rw [Op.ofCode_append]
    exact (h1.takes hs hb (Nat.le_trans h2.allots.count hc)).append (h2.takes hs (h1.bounded hb) hc)
  | .seq h1 h2 =>
    rw [Op.ofCode_append, Op.ofCode_cons]
    exact (h1.takes hs hb (Nat.le_trans h2.allots.count hc)).append
      (Takes.drop.append (h2.takes hs (h1.bounded hb) hc))
  | .comp h1 => exact h1.takes hs hb hc

end

/-! ### calls -/

section
variable {m : Module}

theorem callsFit_of_none {ops : List Op} (h : ∀ i, Op.call i ∉ ops) : m.CallsFit ops := by
  rintro before i after rfl
  exact absurd (List.mem_append_right _ List.mem_cons_self) (h i)

/-- two lists with an instruction between them that neither pushes nor calls -/
theorem callsFit_append {a b : List Op} {op : Op} (ha : m.CallsFit a) (hb : m.CallsFit b)
    (hpush : op.isPush = false) (hcall : ∀ i, op ≠ .call i) : m.CallsFit (a ++ op :: b) := by
  intro before i after h
  rcases List.append_eq_append_iff.mp h with ⟨mid, rfl, hmid⟩ | ⟨mid, rfl, hmid⟩
  · -- the call is behind the instruction
    cases mid with
    | nil => exact absurd (List.cons.inj hmid).1 (hcall i)
    | cons op' mid =>
      obtain ⟨rfl, rfl⟩ := List.cons.inj hmid
      rw [Op.pushed_append_cons hpush]
      exact hb mid i after rfl
  · cases mid with
    | nil => exact absurd (List.cons.inj hmid).1.symm (hcall i)
    | cons op' mid =>
      obtain ⟨rfl, rfl⟩ := List.cons.inj hmid
      exact ha before i mid rfl

theorem Pushes.isPush {fr : Frame} {a : Imm} {code : Code} (h : Pushes fr a code) :
    ∃ op, op.isPush ∧ Op.ofCode code = [op] := by
  cases h with
  | const c => exact ⟨_, rfl, rfl⟩
  | slot _ => exact ⟨_, rfl, rfl⟩

theorem PushesAll.isPush {fr : Frame} {args : List Imm} {code : Code} (h : PushesAll fr args code) :
    (∀ op ∈ Op.ofCode code, op.isPush) ∧ (Op.ofCode code).length = args.length := by
  induction h with
  | nil => exact ⟨fun op hop => absurd hop List.not_mem_nil, rfl⟩
  | cons ha _ ih =>
    obtain ⟨op, hop, hcode⟩ := ha.isPush
    rw [Op.ofCode_append, hcode, List.singleton_append]
    refine ⟨fun op' hop' => ?_, congrArg Nat.succ ih.2⟩
    rcases List.mem_cons.mp hop' with rfl | hop'
    · exact hop
    · exact ih.1 op' hop'

theorem Pushes.no_call {fr : Frame} {a : Imm} {code : Code} (h : Pushes fr a code) (i : Nat) :
    Op.call i ∉ Op.ofCode code := by
  obtain ⟨op, hop, hcode⟩ := h.isPush
  rw [hcode, List.mem_singleton]
  rintro rfl
  exact absurd hop (by simp [Op.isPush])

theorem Stores.no_call {fr : Frame} {index : Nat} {fields : List Field} {code : Code}
    (h : Stores fr index fields code) (i : Nat) : Op.call i ∉ Op.ofCode code := by
  induction h with
  | nil => exact List.not_mem_nil
  | @cons index f fs value rest hf _ ih =>
    have hvalue : Op.call i ∉ Op.ofCode value := by
      cases hf with
      | const n => exact fun hi => absurd hi (by simp [Op.ofCode, Op.ofInstr])
      | imm ha => exact ha.no_call i
    rw [List.cons_append, Op.ofCode_cons, Op.ofCode_append, Op.ofCode_cons]
    simp [Op.ofInstr, hvalue, ih]

theorem Allocates.no_call {fr : Frame} {fields : List Field} {code : Code}
    (h : Allocates fr fields code) (i : Nat) : Op.call i ∉ Op.ofCode code := by
  cases h with
  | mk hstores =>
    rw [List.cons_append, Op.ofCode_cons, Op.ofCode_append]
    simp [Op.ofInstr, Op.ofCode, hstores.no_call i]

/-- a call and the operands of it -/
theorem PushesAll.callsFit {fr : Frame} {args : List Imm} {code : Code}
    (h : PushesAll fr args code) {i : Nat} (hi : m.funcType? i = some ⟨args.length⟩) :
    m.CallsFit (Op.ofCode (code ++ [.call i])) := by
  obtain ⟨hpush, hlen⟩ := h.isPush
  rw [Op.ofCode_append, Op.ofCode_singleton]
  intro before j after he
  rcases List.eq_nil_or_concat after with rfl | ⟨init, last, rfl⟩
  · obtain ⟨rfl, hij⟩ := List.append_inj' he rfl
    obtain rfl := Op.call.inj (List.singleton_inj.mp hij)
    rw [Op.pushed_of_all hpush, hlen]
    exact hi
  · -- a call before the last instruction would be one of the operands
    have he' : Op.ofCode code ++ [.call i] = (before ++ .call j :: init) ++ [last] := by
      simpa [Op.ofInstr] using he
    obtain ⟨hops, -⟩ := List.append_inj' he' rfl
    exact absurd (hpush (.call j) (by rw [hops]; simp)) (by simp [Op.isPush])

end

mutual

theorem CompCode.callsFit {m : Module} {cs : Callees} {locals : Nat}
    (hs : Serves (m.context locals) cs) {c : Comp} {fr fr' : Frame} {code : Code}
    (h : CompCode cs c fr code fr') : m.CallsFit (Op.ofCode code) := by
  match h with
  | .call hf hargs => exact hargs.callsFit (hs.callee hf)
  | .callForeign hf hargs => exact hargs.callsFit (hs.callee hf)
  | .branch ha h1 h2 =>
    rw [Op.ofCode_append, Op.ofCode_singleton, Op.ofInstr_ifElse, List.append_assoc,
      List.cons_append, List.cons_append]
    have helse : m.CallsFit (Op.ofCode _ ++ [.close]) := callsFit_append (h2.callsFit hs)
      (callsFit_of_none fun i => List.not_mem_nil) rfl (by simp)
    have hthen : m.CallsFit (Op.ofCode _ ++ .otherwise :: (_ ++ [.close])) :=
      callsFit_append (h1.callsFit hs) helse rfl (by simp)
    exact callsFit_append (callsFit_of_none ha.no_call) hthen rfl (by simp)
  | .imm ha => exact callsFit_of_none ha.no_call
  | .not ha | .neg ha | .tupleGet ha | .unbox ha =>
    refine callsFit_of_none fun i => ?_
    simp [Op.ofCode_append, Op.ofCode_cons, Op.ofCode_nil, Op.ofInstr, ha.no_call i]
  | .prim2 ha hb | .boxSet ha hb =>
    refine callsFit_of_none fun i => ?_
    simp [Op.ofCode_append, Op.ofCode_cons, Op.ofCode_nil, Op.ofInstr, ha.no_call i, hb.no_call i]
  | .adt ha | .tuple ha | .boxNew ha => exact callsFit_of_none ha.no_call
  | .fail => exact callsFit_of_none fun i => by simp [Op.ofCode, Op.ofInstr]

/-- the code of bindings ends in an instruction that sets a local, if there is any -/
theorem BindingsCode.callsFit {m : Module} {cs : Callees} {locals : Nat}
    (hs : Serves (m.context locals) cs) {bs : List Binding} {fr fr' : Frame} {code : Code}
    (h : BindingsCode cs bs fr code fr') {rest : List Op} (hrest : m.CallsFit rest) :
    m.CallsFit (Op.ofCode code ++ rest) := by
  match h with
  | .nil => exact hrest
  | .cons h1 h2 =>
    rw [Op.ofCode_append, Op.ofCode_cons, List.append_assoc, List.append_assoc]
    exact callsFit_append (h1.callsFit hs) (h2.callsFit hs hrest) rfl (by simp)

theorem ExprCode.callsFit {m : Module} {cs : Callees} {locals : Nat}
    (hs : Serves (m.context locals) cs) {e : Expr} {fr fr' : Frame} {code : Code}
    (h : ExprCode cs e fr code fr') : m.CallsFit (Op.ofCode code) := by
  match h with
  | .letIn h1 h2 =>
    rw [Op.ofCode_append]
    exact h1.callsFit hs (h2.callsFit hs)
  | .seq h1 h2 =>
    rw [Op.ofCode_append, Op.ofCode_cons]
    exact callsFit_append (h1.callsFit hs) (h2.callsFit hs) rfl (by simp)
  | .comp h1 => exact h1.callsFit hs

end

/-! ### modules -/

theorem Lowers.serves {p : Program} {m : Module} {cs : Callees} (h : Lowers p m cs) (ht : m.Typed)
    (locals : Nat) : Serves (m.context locals) cs := by
  refine ⟨Nat.zero_lt_one, fun {foreign f count c} hc => ?_⟩
  show m.funcType? c.index = some ⟨count⟩
  rcases h.callee f.stamp c hc.found with ⟨j, i, hj, -, rfl⟩ | ⟨j, g, hj, -, rfl⟩
  · obtain ⟨d, hd, hdecl⟩ := h.import_at hj
    rw [Module.funcType?_import hd, ht.imports d (List.mem_of_getElem? hd), hdecl.arity,
      show i.arity.toNat = count from hc.arity_eq]
  · obtain ⟨d, hd, hbody⟩ := h.function_at hj
    show m.funcType? (p.imports.length + j) = _
    rw [h.imports.length_eq, Module.funcType?_function hd,
      ht.functions d (List.mem_of_getElem? hd), hbody.arity,
      show g.params.length = count from hc.arity_eq]

theorem Lowers.validates {p : Program} {m : Module} {cs : Callees} (h : Lowers p m cs)
    (ht : m.Typed) {f : FuncDef} (hf : f ∈ m.functions) : m.validates f = true := by
  obtain ⟨params, body, harity, fr, hcode, hcount⟩ := h.bodyCode hf
  have hs := h.serves ht (f.arity + f.locals)
  have hroom : fr.count ≤ (m.context (f.arity + f.locals)).locals := by
    rw [hcount, ← harity]
    exact Nat.le_refl _
  unfold Module.validates
  rw [ht.functions f hf]
  exact decide_eq_true (hcode.takes hs (bounded_ofParams params) hroom).run_body

/-- **Lowered modules are valid**, whether the program keeps the scoping rules or not: the types of
imports and functions are there, the code of each function is valid, and a call takes just what was
pushed for it. -/
theorem lower_valid {p : Program} {m : Module} (hm : p.lower.1 = .ok m) :
    m.Typed ∧ ∀ f ∈ m.functions, m.validates f = true ∧ m.CallsFit (Op.ofCode f.code) := by
  obtain ⟨cs, h⟩ := lower_ok hm
  have ht := lower_typed hm
  refine ⟨ht, fun f hf => ⟨h.validates ht hf, ?_⟩⟩
  obtain ⟨params, body, -, fr, hcode, -⟩ := h.bodyCode hf
  exact hcode.callsFit (h.serves ht 0)

/-- binds parameters twice, goes on after a failure, and uses a binder of the other arm -/
def stray : Program where
  source := none
  imports := []
  functions := [{
    id := ⟨"f", 0⟩
    params := [⟨"a", 1⟩, ⟨"a", 1⟩]
    body := .letOne ⟨"x", 2⟩ (.fail 7)
      (.comp (.branch (.id ⟨"x", 2⟩)
        (.letOne ⟨"y", 3⟩ (.tuple [.id ⟨"a", 1⟩]) (.imm (.id ⟨"y", 3⟩)))
        (.comp (.call ⟨"f", 0⟩ [.id ⟨"y", 3⟩, .unit]))))
    exported := true
    span := none }]
  body := .seq (.fail 1) (.comp (.call ⟨"f", 0⟩ [.int 1, .int 2]))

theorem lower_valid_stray : (∃ v, stray.check = .error v) ∧ ∃ m, stray.lower.1 = .ok m ∧
    m.functions.length = 2 ∧
    ∀ f ∈ m.functions, m.validates f = true ∧ m.CallsFit (Op.ofCode f.code) := by
  obtain ⟨m, hm, hlen⟩ : ∃ m, stray.lower.1 = .ok m ∧ m.functions.length = 2 := ⟨_, rfl, rfl⟩
  exact ⟨⟨_, rfl⟩, m, hm, hlen, (lower_valid hm).2⟩

end AnfWasm.Lowering
