import AnfWasm.Proofs.Lowering.Operations

/-!
# Lowered code does what the expression means

`Agree A calls cs X Y` says that the calls of an evaluation and the calls of a run have related
ends.  Then code and expression have related ends too:

* `CompCode.meets`, `BindingsCode.meets`, `ExprCode.meets`   one case per rule, by recursion on the
                                                          code.
-/

namespace AnfWasm.Lowering

open Wasm

/-- Calls of the callees end as they should. -/
structure Agree (A : Area) (calls : List ForeignCall) (cs : Callees) (X : Callables) (Y : Targets) :
    Prop where
  grow : X.Grow
  arity : ∀ {foreign : Bool} {f : Ident} {count : Nat} {c : Callee},
    Callable cs foreign f count c → Y.arity? c.index = some count
  call : ∀ {f : Ident} {vs : List Value} {us : List Word} {c : Callee} {w : World} {s : Store}
    {H : Heap}, Callable cs false f vs.length c → Related A w s H →
    List.Forall₂ H.Represents vs us →
    Meets A calls H Heap.Represents (X.call f vs w) (Y.call c.index us s)
  callForeign : ∀ {f : Ident} {vs : List Value} {us : List Word} {c : Callee} {w : World}
    {s : Store} {H : Heap}, Callable cs true f vs.length c → Related A w s H →
    List.Forall₂ H.Represents vs us →
    Meets A calls H Heap.Represents (X.callForeign f vs w) (Y.call c.index us s)

section
variable {A : Area} {calls : List ForeignCall} {cs : Callees} {X : Callables} {Y : Targets}
  {H : Heap} {K : List UInt32} {fr : Frame} {env : Env} {ls st : List Word} {w : World} {s : Store}

/-- a computation whose operands have no values is an error -/
theorem meets_plain {β : Type} {c : Comp} {R : Heap → Value → β → Prop}
    {r : EStateM.Result Halt Store β} (hc : c.arms = [])
    (h : ∀ vs, values? env c.operands = some vs → Meets A calls H R (c.perform X vs w) r) :
    Meets A calls H R (c.eval X env w) r := by
  rw [Comp.eval_plain hc]
  unfold Eval.values
  cases hvs : values? env c.operands with
  | none => trivial
  | some vs => exact h vs hvs

theorem InLocals.operand_one (hH : InLocals H K fr env ls) {a : Imm} {vs : List Value}
    (hvs : values? env [a] = some vs) :
    ∃ v u, vs = [v] ∧ H.Represents v u ∧ OperandWord fr ls a u := by
  obtain ⟨v, vs', ha, hnil, rfl⟩ := values?_cons hvs
  obtain rfl : [] = vs' := Option.some.inj hnil
  obtain ⟨u, hu, hw⟩ := hH.operand ha
  exact ⟨v, u, rfl, hu, hw⟩

theorem InLocals.operand_two (hH : InLocals H K fr env ls) {a b : Imm} {vs : List Value}
    (hvs : values? env [a, b] = some vs) :
    ∃ v₁ u₁ v₂ u₂, vs = [v₁, v₂] ∧ (H.Represents v₁ u₁ ∧ OperandWord fr ls a u₁) ∧
      H.Represents v₂ u₂ ∧ OperandWord fr ls b u₂ := by
  obtain ⟨v₁, vs', ha, hb, rfl⟩ := values?_cons hvs
  obtain ⟨u₁, h₁⟩ := hH.operand ha
  obtain ⟨v₂, u₂, rfl, h₂⟩ := hH.operand_one hb
  exact ⟨v₁, u₁, v₂, u₂, rfl, h₁, h₂⟩

/-- the instruction after an operand -/
theorem execAll_operand {a : Imm} {u : Word} {code : Code} (hw : OperandWord fr ls a u)
    (ha : Pushes fr a code) (i : Instr) :
    Instr.execAll Y (code ++ [i]) ⟨st, ls⟩ s = i.exec Y ⟨u :: st, ls⟩ s := by
  rw [Instr.execAll_append_ok (hw code ha Y st s), Instr.execAll_singleton]

/-- the code after two operands -/
theorem execAll_two {a b : Imm} {u₁ u₂ : Word} {left right : Code} (h₁ : OperandWord fr ls a u₁)
    (ha : Pushes fr a left) (h₂ : OperandWord fr ls b u₂) (hb : Pushes fr b right) (rest : Code) :
    Instr.execAll Y (left ++ right ++ rest) ⟨st, ls⟩ s
      = Instr.execAll Y rest ⟨u₂ :: u₁ :: st, ls⟩ s := by
  rw [List.append_assoc, Instr.execAll_append_ok (h₁ left ha Y st s),
    Instr.execAll_append_ok (h₂ right hb Y (u₁ :: st) s)]

/-- a call of either kind -/
theorem meets_call {args : List Imm} {vs : List Value} {code : Code} {i n : Nat}
    {r : Eval.Result Value} (hH : InLocals H K fr env ls) (hvs : values? env args = some vs)
    (hcode : PushesAll fr args code) (harity : Y.arity? i = some args.length)
    (h : ∀ us, vs.length = args.length → List.Forall₂ H.Represents vs us →
      Meets A calls H Heap.Represents r (Y.call i us s)) :
    Meets A calls H (Leaves n st ls) r (Instr.execAll Y (code ++ [.call i]) ⟨st, ls⟩ s) := by
  obtain ⟨us, hus, hws⟩ := hH.operands hvs
  rw [hws.length_eq] at harity
  rw [Instr.execAll_append_ok (hcode.runs hws Y st s), Instr.execAll_singleton,
    Instr.exec_call harity]
  have hlen : vs.length = args.length := hus.length_eq.trans hws.length_eq.symm
  refine (h us hlen hus).post fun v u s' H' hu => ?_
  exact ⟨_, rfl, u, ls, rfl, hu, .refl n ls⟩

/-- an object with a header that ends with the number of its components -/
theorem meets_construct {n : Nat} (tags : List Word) {v : Value} {args : List Imm} {vs : List Value}
    {code : Code}
    (h : Allocates fr ((tags ++ [Int32.ofNat args.length]).map Field.const ++ args.map .imm) code)
    (hv : v.object? = some (tags ++ [.ofNat vs.length], vs)) (hH : InLocals H K fr env ls)
    (hvs : values? env args = some vs) (hrel : Related A w s H) :
    Meets A calls H (Leaves n st ls)
      (.ok v { w with words := w.words + (tags.length + 1 + vs.length) })
      (Instr.execAll Y code ⟨st, ls⟩ s) := by
  obtain ⟨us, hus, hws⟩ := hH.operands hvs
  rw [hws.length_eq, ← hus.length_eq] at h
  have hpos : (tags ++ [Int32.ofNat vs.length]).length = tags.length + 1 := by simp
  rw [← hpos]
  exact meets_object h (by omega) hv hH hvs hrel Y

theorem meets_not {v : Value} {u : Word} {n : Nat} (hrel : Related A w s H)
    (hu : H.Represents v u) : Meets A calls H (Leaves n st ls) (Eval.ofOption (Prim1.not.apply v) w)
      (Instr.eqz.exec Y ⟨u :: st, ls⟩ s) := by
  match v with
  | .bool b =>
    obtain rfl := hu.bool_eq
    have hexec : Instr.eqz.exec Y ⟨truth b :: st, ls⟩ s = .ok ⟨truth (!b) :: st, ls⟩ s := by
      rw [← not_word]
      rfl
    exact meets_value hrel hexec (.bool _)
  | .int _ | .unit | .adt _ _ _ | .tuple _ | .box _ => trivial

theorem meets_neg {v : Value} {u : Word} {n : Nat} (hrel : Related A w s H)
    (hu : H.Represents v u) : Meets A calls H (Leaves n st ls) (Eval.ofOption (Prim1.neg.apply v) w)
      ((Instr.binary .sub).exec Y ⟨u :: 0 :: st, ls⟩ s) := by
  match v with
  | .int m =>
    obtain rfl := hu.int_eq
    have happly : BinOp.sub.apply 0 u = some (-u) := congrArg some (Int32.zero_sub u)
    exact meets_value hrel (Instr.exec_binary happly) (.int _)
  | .bool _ | .unit | .adt _ _ _ | .tuple _ | .box _ => trivial

end

/-! ### code -/

mutual

theorem CompCode.meets {cs : Callees} {c : Comp} {fr fr' : Frame} {code : Code}
    (h : CompCode cs c fr code fr') {A : Area} {calls : List ForeignCall}
    {X : Callables} {Y : Targets} (hXY : Agree A calls cs X Y) {K : List UInt32} {env : Env}
    {ls : List Word} {w : World} {s : Store}
    {H : Heap} (hf : Fresh K c.binders) (hlen : fr'.count ≤ ls.length) (hH : InLocals H K fr env ls)
    (hrel : Related A w s H) (st : List Word) :
    Meets A calls H (Leaves fr.count st ls) (c.eval X env w) (Instr.execAll Y code ⟨st, ls⟩ s) := by
  match h with
  | .imm ha =>
    refine meets_plain rfl fun vs hvs => ?_
    obtain ⟨v, u, rfl, hu, hw⟩ := hH.operand_one hvs
    exact meets_value hrel (hw _ ha Y st s) hu
  | .not ha =>
    refine meets_plain rfl fun vs hvs => ?_
    obtain ⟨v, u, rfl, hu, hw⟩ := hH.operand_one hvs
    rw [execAll_operand hw ha]
    exact meets_not hrel hu
  | .neg ha =>
    refine meets_plain rfl fun vs hvs => ?_
    obtain ⟨v, u, rfl, hu, hw⟩ := hH.operand_one hvs
    rw [List.cons_append, Instr.execAll_cons_ok rfl, execAll_operand hw ha]
    exact meets_neg hrel hu
  | .prim2 ha hb =>
    refine meets_plain rfl fun vs hvs => ?_
    obtain ⟨v₁, u₁, v₂, u₂, rfl, ⟨h₁, hw₁⟩, h₂, hw₂⟩ := hH.operand_two hvs
    rw [execAll_two hw₁ ha hw₂ hb, Instr.execAll_singleton]
    exact meets_prim2 Y hrel h₁ h₂
  | @CompCode.adt _ _ t v _ _ ha =>
    refine meets_plain rfl fun vs hvs => ?_
    exact meets_construct [t.toInt32, v.toInt32] ha rfl hH hvs hrel
  | .tuple ha =>
    refine meets_plain rfl fun vs hvs => ?_
    exact meets_construct [] ha rfl hH hvs hrel
  | .tupleGet ha =>
    refine meets_plain rfl fun vs hvs => ?_
    obtain ⟨v, u, rfl, hu, hw⟩ := hH.operand_one hvs
    rw [execAll_operand hw ha]
    exact meets_element _ Y hrel hu
  | .boxNew ha =>
    refine meets_plain rfl fun vs hvs => ?_
    obtain ⟨v, u, rfl, hu, hw⟩ := hH.operand_one hvs
    exact meets_newBox ha hu hw hrel Y
  | .unbox ha =>
    refine meets_plain rfl fun vs hvs => ?_
    obtain ⟨v, u, rfl, hu, hw⟩ := hH.operand_one hvs
    rw [execAll_operand hw ha]
    match v with
    | .box l => exact meets_readBox Y hrel hu
    | .int _ | .bool _ | .unit | .adt _ _ _ | .tuple _ => trivial
  | .boxSet ha hb =>
    refine meets_plain rfl fun vs hvs => ?_
    obtain ⟨v₁, u₁, v₂, u₂, rfl, ⟨h₁, hw₁⟩, h₂, hw₂⟩ := hH.operand_two hvs
    rw [execAll_two hw₁ ha hw₂ hb]
    match v₁ with
    | .box l => exact meets_writeBox Y hrel h₁ h₂
    | .int _ | .bool _ | .unit | .adt _ _ _ | .tuple _ => trivial
  | .call hc hcode =>
    refine meets_plain rfl fun vs hvs => ?_
    exact meets_call hH hvs hcode (hXY.arity hc) fun us hn hus => hXY.call (hn ▸ hc) hrel hus
  | .callForeign hc hcode =>
    refine meets_plain rfl fun vs hvs => ?_
    exact meets_call hH hvs hcode (hXY.arity hc) fun us hn hus => hXY.callForeign (hn ▸ hc) hrel hus
  | @CompCode.branch _ _ _ _ a t e _ _ _ ha h1 h2 =>
    obtain ⟨hf1, hf2⟩ := hf.append
    have hcount := h1.allots.count
    have hcount' := h2.allots.count
    by_cases hv : ∃ b, a.value? env = some (.bool b)
    · obtain ⟨b, hb⟩ := hv
      obtain ⟨u, hu, hw⟩ := hH.operand hb
      obtain rfl := hu.bool_eq
      rw [Comp.eval_branch hb, execAll_operand hw ha, Instr.exec_ifElse]
      cases b with
      | true =>
        refine (h1.meets hXY hf1 (by omega) hH hrel []).post fun v a s' H' hleave => ?_
        obtain ⟨u, ls', rfl, hu, hk⟩ := hleave
        exact ⟨_, rfl, u, ls', rfl, hu, hk⟩
      | false =>
        -- the locals of the other arm are allotted, though it did not run
        have hH' := hH.allot h1.allots hf1
        have hf2' := hf2.mono fun n hn => List.mem_append_right _ hn
        refine (h2.meets hXY hf2' hlen hH' hrel []).post fun v a s' H' hleave => ?_
        obtain ⟨u, ls', rfl, hu, hk⟩ := hleave
        exact ⟨_, rfl, u, ls', rfl, hu, (KeepsLocals.refl _ ls).trans hk hcount⟩
    · rw [Comp.eval_branch_error (not_exists.mp hv)]
      trivial
  | .fail =>
    refine meets_plain rfl fun vs hvs => ?_
    exact fun _ => ⟨s, H, rfl, .refl H, hrel⟩

theorem BindingsCode.meets {cs : Callees} {bs : List Binding} {fr fr' : Frame} {code : Code}
    (h : BindingsCode cs bs fr code fr') {A : Area} {calls : List ForeignCall}
    {X : Callables} {Y : Targets} (hXY : Agree A calls cs X Y) {K : List UInt32} {env : Env}
    {ls : List Word} {w : World} {s : Store}
    {H : Heap} (hf : Fresh K (Binding.binders bs)) (hlen : fr'.count ≤ ls.length)
    (hH : InLocals H K fr env ls) (hrel : Related A w s H) (st : List Word) :
    Meets A calls H (fun H' env' a => ∃ ls', a = ⟨st, ls'⟩ ∧
        InLocals H' (stamps (Binding.binders bs) ++ K) fr' env' ls' ∧ KeepsLocals fr.count ls ls')
      (Binding.evals X env bs w) (Instr.execAll Y code ⟨st, ls⟩ s) := by
  match h with
  | .nil => exact fun _ => ⟨_, s, H, rfl, .refl H, hrel, ls, rfl, hH, .refl _ ls⟩
  | @BindingsCode.cons _ _ _ _ x c _ bs _ _ h1 h2 =>
    obtain ⟨hf1, hf'⟩ := hf.append
    obtain ⟨hx, hf2⟩ := hf'.cons
    have hcount := h1.allots.count
    have hcount' := h2.allots.count
    rw [Frame.count_bind] at hcount'
    rw [Instr.execAll_append]
    refine (h1.meets hXY hf1 (by omega) hH hrel st).bind
      (fun v => Binding.grows_evals hXY.grow bs _) fun v a w' s' H' he hrel' hleave => ?_
    obtain ⟨u, ls', rfl, hu, hk⟩ := hleave
    have hroom := hk.length
    rw [Instr.execAll_cons_ok (Instr.exec_localSet u (by omega))]
    -- the value goes to a local that nothing uses yet
    have hH' := (((hH.mono he).keep hk).allot h1.allots hf1).weaken
      fun n hn => List.mem_append_right (stamps c.binders) hn
    have hkset := hk.trans (keepsLocals_set ls' u (Nat.le_refl _)) hcount
    refine (h2.meets hXY hf2 (by rw [hkset.length]; omega) (hH'.bind hx hu (by omega)) hrel' st).imp
      fun H'' env' a hrest => ?_
    obtain ⟨ls'', rfl, hH'', hk''⟩ := hrest
    have hkeep := hkset.trans hk'' (Nat.le_trans hcount (allots_bind _ x).count)
    refine ⟨ls'', rfl, hH''.weaken fun n hn => ?_, hkeep⟩
    show n ∈ stamps (c.binders ++ x :: Binding.binders bs) ++ K
    rw [stamps_append, stamps_cons]
    simp only [List.mem_append, List.mem_cons] at hn ⊢
    tauto

theorem ExprCode.meets {cs : Callees} {e : Expr} {fr fr' : Frame} {code : Code}
    (h : ExprCode cs e fr code fr') {A : Area} {calls : List ForeignCall}
    {X : Callables} {Y : Targets} (hXY : Agree A calls cs X Y) {K : List UInt32} {env : Env}
    {ls : List Word} {w : World} {s : Store}
    {H : Heap} (hf : Fresh K e.binders) (hlen : fr'.count ≤ ls.length) (hH : InLocals H K fr env ls)
    (hrel : Related A w s H) (st : List Word) :
    Meets A calls H (Leaves fr.count st ls) (e.eval X env w) (Instr.execAll Y code ⟨st, ls⟩ s) := by
  match h with
  | @ExprCode.letIn _ _ _ _ _ _ e _ _ h1 h2 =>
    obtain ⟨hf1, hf2⟩ := hf.append
    have hcount := h1.allots.count
    have hcount' := h2.allots.count
    rw [Instr.execAll_append]
    refine (h1.meets hXY hf1 (by omega) hH hrel st).bind (fun env' => e.grows_eval hXY.grow env')
      fun env' a w' s' H' he hrel' hrest => ?_
    obtain ⟨ls', rfl, hH', hk⟩ := hrest
    have hroom := hk.length
    exact (h2.meets hXY hf2 (by omega) hH' hrel' st).imp fun _ _ _ hl => hl.after hk hcount
  | @ExprCode.seq _ _ _ _ _ e _ _ h1 h2 =>
    obtain ⟨hf1, hf2⟩ := hf.append
    have hcount := h1.allots.count
    have hcount' := h2.allots.count
    rw [Instr.execAll_append]
    refine (h1.meets hXY hf1 (by omega) hH hrel st).bind (fun _ => e.grows_eval hXY.grow env)
      fun v a w' s' H' he hrel' hleave => ?_
    obtain ⟨u, ls', rfl, hu, hk⟩ := hleave
    have hroom := hk.length
    rw [Instr.execAll_cons_ok rfl]
    have hH' := ((hH.mono he).keep hk).allot h1.allots hf1
    have hf2' := hf2.mono fun n hn => List.mem_append_right _ hn
    exact (h2.meets hXY hf2' (by omega) hH' hrel' st).imp fun _ _ _ hl => hl.after hk hcount
  | .comp h1 => exact h1.meets hXY hf hlen hH hrel st

end

end AnfWasm.Lowering
