import AnfWasm.Lowering.Basic
import AnfWasm.Proofs.Actions
import AnfWasm.Proofs.Scope.Sites

/-!
# The code of expressions

`CompCode cs c fr code fr'` says, with one rule per construct, that `code` is the code of `c` in the
frame `fr` and that `fr'` is the frame after it, with the callees `cs`.  A lowering that succeeds
gives such code (`lowerExpr_code`), so proofs about lowered code go by these rules.

The locals of a function are allotted one by one and never given up: `Allots xs fr fr'` says that at
most the binders `xs` get a local on the way from `fr` to `fr'`.
-/

namespace AnfWasm.Lowering

open Wasm

variable {cs : Callees} {fr fr' fr'' : Frame}

/-! ### operands and objects -/

/-- `code` pushes an operand -/
inductive Pushes (fr : Frame) : Imm → Code → Prop where
  | const (c : Constant) : Pushes fr (.const c) [.const (constWord c)]
  | slot {x : Ident} {i : Nat} : fr.slots.lookup x.stamp = some i → Pushes fr (.id x) [.localGet i]

inductive PushesAll (fr : Frame) : List Imm → Code → Prop where
  | nil : PushesAll fr [] []
  | cons {a : Imm} {as : List Imm} {code rest : Code} :
      Pushes fr a code → PushesAll fr as rest → PushesAll fr (a :: as) (code ++ rest)

inductive PushesField (fr : Frame) : Field → Code → Prop where
  | const (n : Int32) : PushesField fr (.const n) [.const n]
  | imm {a : Imm} {code : Code} : Pushes fr a code → PushesField fr (.imm a) code

/-- `code` stores fields from word `index` of the object at the heap pointer -/
inductive Stores (fr : Frame) : Nat → List Field → Code → Prop where
  | nil {index : Nat} : Stores fr index [] []
  | cons {index : Nat} {f : Field} {fs : List Field} {value rest : Code} :
      PushesField fr f value → Stores fr (index + 1) fs rest →
      Stores fr index (f :: fs)
        (.globalGet heapPointer :: value ++ .store (wordSize * index) :: rest)

/-- `code` makes an object -/
inductive Allocates (fr : Frame) : List Field → Code → Prop where
  | mk {fields : List Field} {stores : Code} : Stores fr 0 fields stores →
      Allocates fr fields (.globalGet heapPointer :: stores ++
        [.globalGet heapPointer, .const (.ofNat (wordSize * fields.length)), .binary .add,
          .globalSet heapPointer])

/-- the callee is what the call takes it for -/
structure Callable (cs : Callees) (foreign : Bool) (f : Ident) (count : Nat) (c : Callee) :
    Prop where
  found : cs.lookup f.stamp = some c
  foreign_eq : c.foreign = foreign
  arity_eq : c.arity = count

/-! ### expressions -/

mutual

inductive CompCode (cs : Callees) : Comp → Frame → Code → Frame → Prop where
  | imm {fr : Frame} {a : Imm} {code : Code} : Pushes fr a code → CompCode cs (.imm a) fr code fr
  | not {fr : Frame} {a : Imm} {code : Code} :
      Pushes fr a code → CompCode cs (.prim1 .not a) fr (code ++ [.eqz]) fr
  | neg {fr : Frame} {a : Imm} {code : Code} :
      Pushes fr a code → CompCode cs (.prim1 .neg a) fr (.const 0 :: code ++ [.binary .sub]) fr
  | prim2 {fr : Frame} {op : Prim2} {a b : Imm} {left right : Code} :
      Pushes fr a left → Pushes fr b right →
      CompCode cs (.prim2 op a b) fr (left ++ right ++ [.binary (binOp op)]) fr
  | adt {fr : Frame} {typeTag variant : UInt32} {args : List Imm} {code : Code} :
      Allocates fr (adtFields typeTag variant args) code →
      CompCode cs (.adt typeTag variant args) fr code fr
  | tuple {fr : Frame} {args : List Imm} {code : Code} :
      Allocates fr (tupleFields args) code → CompCode cs (.tuple args) fr code fr
  | tupleGet {fr : Frame} {index : UInt32} {a : Imm} {code : Code} :
      Pushes fr a code →
      CompCode cs (.tupleGet index a) fr (code ++ [.load (wordSize * (index.toNat + 1))]) fr
  | boxNew {fr : Frame} {a : Imm} {code : Code} :
      Allocates fr [.imm a] code → CompCode cs (.boxNew a) fr code fr
  | unbox {fr : Frame} {a : Imm} {code : Code} :
      Pushes fr a code → CompCode cs (.unbox a) fr (code ++ [.load 0]) fr
  | boxSet {fr : Frame} {a b : Imm} {cell value : Code} :
      Pushes fr a cell → Pushes fr b value →
      CompCode cs (.boxSet a b) fr (cell ++ value ++ [.store 0, .const 0]) fr
  | call {fr : Frame} {f : Ident} {args : List Imm} {code : Code} {c : Callee} :
      Callable cs false f args.length c → PushesAll fr args code →
      CompCode cs (.call f args) fr (code ++ [.call c.index]) fr
  | callForeign {fr : Frame} {f : Ident} {args : List Imm} {code : Code} {c : Callee} :
      Callable cs true f args.length c → PushesAll fr args code →
      CompCode cs (.callForeign f args) fr (code ++ [.call c.index]) fr
  | branch {fr fr' fr'' : Frame} {a : Imm} {thenArm elseArm : Expr}
      {cond thenCode elseCode : Code} :
      Pushes fr a cond → ExprCode cs thenArm fr thenCode fr' →
      ExprCode cs elseArm fr' elseCode fr'' →
      CompCode cs (.branch a thenArm elseArm) fr (cond ++ [.ifElse thenCode elseCode]) fr''
  | fail {fr : Frame} {code : UInt32} :
      CompCode cs (.fail code) fr [.unreachable] { fr with failures := fr.failures ++ [code] }

inductive BindingsCode (cs : Callees) : List Binding → Frame → Code → Frame → Prop where
  | nil {fr : Frame} : BindingsCode cs [] fr [] fr
  | cons {fr fr' fr'' : Frame} {id : Ident} {comp : Comp} {span : Option Span} {bs : List Binding}
      {code rest : Code} :
      CompCode cs comp fr code fr' → BindingsCode cs bs (fr'.bind id) rest fr'' →
      BindingsCode cs (⟨id, comp, span⟩ :: bs) fr (code ++ .localSet fr'.count :: rest) fr''

inductive ExprCode (cs : Callees) : Expr → Frame → Code → Frame → Prop where
  | letIn {fr fr' fr'' : Frame} {kind : LetKind} {bs : List Binding} {body : Expr}
      {code rest : Code} :
      BindingsCode cs bs fr code fr' → ExprCode cs body fr' rest fr'' →
      ExprCode cs (.letIn kind bs body) fr (code ++ rest) fr''
  | seq {fr fr' fr'' : Frame} {comp : Comp} {rest : Expr} {code restCode : Code} :
      CompCode cs comp fr code fr' → ExprCode cs rest fr' restCode fr'' →
      ExprCode cs (.seq comp rest) fr (code ++ .drop :: restCode) fr''
  | comp {fr fr' : Frame} {comp : Comp} {code : Code} :
      CompCode cs comp fr code fr' → ExprCode cs (.comp comp) fr code fr'

end

/-! ### what succeeds -/

theorem lowerImm_ok {a : Imm} {code : Code} (h : lowerImm a fr = .ok code fr') :
    Pushes fr a code ∧ fr' = fr := by
  cases a with
  | const c =>
    obtain ⟨rfl, rfl⟩ := pure_ok h
    exact ⟨.const c, rfl⟩
  | id x =>
    obtain ⟨f, s, h1, k1⟩ := bind_ok h
    obtain ⟨rfl, rfl⟩ := EStateM.Result.ok.inj h1
    cases hi : fr.slots.lookup x.stamp with
    | some i =>
      simp only [hi] at k1
      obtain ⟨rfl, rfl⟩ := pure_ok k1
      exact ⟨.slot hi, rfl⟩
    | none =>
      simp only [hi] at k1
      exact (throw_ok k1).elim

theorem lowerImms_ok {args : List Imm} {code : Code} (h : lowerImms args fr = .ok code fr') :
    PushesAll fr args code ∧ fr' = fr := by
  induction args generalizing code fr' with
  | nil =>
    obtain ⟨rfl, rfl⟩ := pure_ok h
    exact ⟨.nil, rfl⟩
  | cons a args ih =>
    obtain ⟨first, s, h1, k1⟩ := bind_ok h
    obtain ⟨hfirst, rfl⟩ := lowerImm_ok h1
    obtain ⟨rest, s, h2, k2⟩ := bind_ok k1
    obtain ⟨hrest, rfl⟩ := ih h2
    obtain ⟨rfl, rfl⟩ := pure_ok k2
    exact ⟨.cons hfirst hrest, rfl⟩

theorem lowerField_ok {f : Field} {code : Code} (h : lowerField f fr = .ok code fr') :
    PushesField fr f code ∧ fr' = fr := by
  cases f with
  | const n =>
    obtain ⟨rfl, rfl⟩ := pure_ok h
    exact ⟨.const n, rfl⟩
  | imm a =>
    obtain ⟨ha, rfl⟩ := lowerImm_ok h
    exact ⟨.imm ha, rfl⟩

theorem storeFields_ok {fields : List Field} {index : Nat} {code : Code}
    (h : storeFields index fields fr = .ok code fr') : Stores fr index fields code ∧ fr' = fr := by
  induction fields generalizing index code fr' with
  | nil =>
    obtain ⟨rfl, rfl⟩ := pure_ok h
    exact ⟨.nil, rfl⟩
  | cons f fields ih =>
    obtain ⟨value, s, h1, k1⟩ := bind_ok h
    obtain ⟨hvalue, rfl⟩ := lowerField_ok h1
    obtain ⟨rest, s, h2, k2⟩ := bind_ok k1
    obtain ⟨hrest, rfl⟩ := ih h2
    obtain ⟨rfl, rfl⟩ := pure_ok k2
    exact ⟨.cons hvalue hrest, rfl⟩

theorem allocate_ok {fields : List Field} {code : Code} (h : allocate fields fr = .ok code fr') :
    Allocates fr fields code ∧ fr' = fr := by
  obtain ⟨stores, s, h1, k1⟩ := bind_ok h
  obtain ⟨hstores, rfl⟩ := storeFields_ok h1
  obtain ⟨rfl, rfl⟩ := pure_ok k1
  exact ⟨.mk hstores, rfl⟩

theorem callee_ok {foreign : Bool} {f : Ident} {count : Nat} {c : Callee}
    (h : callee cs foreign f count fr = .ok c fr') : Callable cs foreign f count c ∧ fr' = fr := by
  unfold callee at h
  cases hd : cs.lookup f.stamp with
  | none =>
    rw [hd] at h
    exact (throw_ok h).elim
  | some d =>
    simp only [hd] at h
    by_cases hforeign : d.foreign = foreign
    · rw [if_neg (not_not_intro hforeign)] at h
      by_cases harity : d.arity = count
      · rw [if_neg (not_not_intro harity)] at h
        obtain ⟨rfl, rfl⟩ := pure_ok h
        exact ⟨⟨hd, hforeign, harity⟩, rfl⟩
      · rw [if_pos harity] at h
        exact (throw_ok h).elim
    · rw [if_pos hforeign] at h
      exact (throw_ok h).elim

theorem lowerCall_ok {foreign : Bool} {f : Ident} {args : List Imm} {code : Code}
    (h : lowerCall cs foreign f args fr = .ok code fr') :
    ∃ c push, Callable cs foreign f args.length c ∧ PushesAll fr args push ∧
      code = push ++ [.call c.index] ∧ fr' = fr := by
  obtain ⟨c, s, h1, k1⟩ := bind_ok h
  obtain ⟨hc, rfl⟩ := callee_ok h1
  obtain ⟨push, s, h2, k2⟩ := bind_ok k1
  obtain ⟨hpush, rfl⟩ := lowerImms_ok h2
  obtain ⟨rfl, rfl⟩ := pure_ok k2
  exact ⟨c, push, hc, hpush, rfl, rfl⟩

theorem checkGroup_ok {kind : LetKind} {bs : List Binding} {u : Unit}
    (h : checkGroup kind bs fr = .ok u fr') : fr' = fr := by
  cases kind with
  | sequential => exact (pure_ok h).2
  | recursive =>
    unfold checkGroup at h
    cases hm : groupMention? bs with
    | none =>
      rw [hm] at h
      exact (pure_ok h).2
    | some m =>
      rw [hm] at h
      exact (throw_ok h).elim

mutual

theorem lowerComp_code (c : Comp) {cs : Callees} {fr fr' : Frame} {code : Code}
    (h : lowerComp cs c fr = .ok code fr') : CompCode cs c fr code fr' := by
  match c with
  | .imm a =>
    obtain ⟨ha, rfl⟩ := lowerImm_ok h
    exact .imm ha
  | .prim1 .not a =>
    obtain ⟨push, s, h1, k1⟩ := bind_ok h
    obtain ⟨ha, rfl⟩ := lowerImm_ok h1
    obtain ⟨rfl, rfl⟩ := pure_ok k1
    exact .not ha
  | .prim1 .neg a =>
    obtain ⟨push, s, h1, k1⟩ := bind_ok h
    obtain ⟨ha, rfl⟩ := lowerImm_ok h1
    obtain ⟨rfl, rfl⟩ := pure_ok k1
    exact .neg ha
  | .prim2 op a b =>
    obtain ⟨left, s, h1, k1⟩ := bind_ok h
    obtain ⟨ha, rfl⟩ := lowerImm_ok h1
    obtain ⟨right, s, h2, k2⟩ := bind_ok k1
    obtain ⟨hb, rfl⟩ := lowerImm_ok h2
    obtain ⟨rfl, rfl⟩ := pure_ok k2
    exact .prim2 ha hb
  | .adt typeTag variant args =>
    obtain ⟨ha, rfl⟩ := allocate_ok h
    exact .adt ha
  | .tuple args =>
    obtain ⟨ha, rfl⟩ := allocate_ok h
    exact .tuple ha
  | .tupleGet index a =>
    obtain ⟨push, s, h1, k1⟩ := bind_ok h
    obtain ⟨ha, rfl⟩ := lowerImm_ok h1
    obtain ⟨rfl, rfl⟩ := pure_ok k1
    exact .tupleGet ha
  | .boxNew a =>
    obtain ⟨ha, rfl⟩ := allocate_ok h
    exact .boxNew ha
  | .unbox a =>
    obtain ⟨push, s, h1, k1⟩ := bind_ok h
    obtain ⟨ha, rfl⟩ := lowerImm_ok h1
    obtain ⟨rfl, rfl⟩ := pure_ok k1
    exact .unbox ha
  | .boxSet a b =>
    obtain ⟨cell, s, h1, k1⟩ := bind_ok h
    obtain ⟨ha, rfl⟩ := lowerImm_ok h1
    obtain ⟨value, s, h2, k2⟩ := bind_ok k1
    obtain ⟨hb, rfl⟩ := lowerImm_ok h2
    obtain ⟨rfl, rfl⟩ := pure_ok k2
    exact .boxSet ha hb
  | .call f args =>
    obtain ⟨c, push, hc, hpush, rfl, rfl⟩ := lowerCall_ok h
    exact .call hc hpush
  | .callForeign f args =>
    obtain ⟨c, push, hc, hpush, rfl, rfl⟩ := lowerCall_ok h
    exact .callForeign hc hpush
  | .branch a thenArm elseArm =>
    obtain ⟨cond, s, h1, k1⟩ := bind_ok h
    obtain ⟨ha, rfl⟩ := lowerImm_ok h1
    obtain ⟨thenCode, s₁, h2, k2⟩ := bind_ok k1
    obtain ⟨elseCode, s₂, h3, k3⟩ := bind_ok k2
    obtain ⟨rfl, rfl⟩ := pure_ok k3
    exact .branch ha (lowerExpr_code thenArm h2) (lowerExpr_code elseArm h3)
  | .fail n =>
    obtain ⟨u, s, h1, k1⟩ := bind_ok h
    obtain ⟨-, rfl⟩ := EStateM.Result.ok.inj h1
    obtain ⟨rfl, rfl⟩ := pure_ok k1
    exact .fail

theorem lowerBindings_code (bs : List Binding) {cs : Callees} {fr fr' : Frame} {code : Code}
    (h : lowerBindings cs bs fr = .ok code fr') : BindingsCode cs bs fr code fr' := by
  match bs with
  | [] =>
    obtain ⟨rfl, rfl⟩ := pure_ok h
    exact .nil
  | ⟨id, comp, span⟩ :: bs =>
    obtain ⟨first, s₁, h1, k1⟩ := bind_ok h
    -- the local is the number of locals so far, and then it is allotted
    obtain ⟨rest, s₂, h2, k2⟩ := bind_ok (show (lowerBindings cs bs >>= fun rest =>
      pure (first ++ .localSet s₁.count :: rest)) (s₁.bind id) = .ok code fr' from k1)
    obtain ⟨rfl, rfl⟩ := pure_ok k2
    exact .cons (lowerComp_code comp h1) (lowerBindings_code bs h2)

theorem lowerExpr_code (e : Expr) {cs : Callees} {fr fr' : Frame} {code : Code}
    (h : lowerExpr cs e fr = .ok code fr') : ExprCode cs e fr code fr' := by
  match e with
  | .letIn kind bs body =>
    obtain ⟨u, s, h0, k0⟩ := bind_ok h
    obtain rfl := checkGroup_ok h0
    obtain ⟨first, s₁, h1, k1⟩ := bind_ok k0
    obtain ⟨rest, s₂, h2, k2⟩ := bind_ok k1
    obtain ⟨rfl, rfl⟩ := pure_ok k2
    exact .letIn (lowerBindings_code bs h1) (lowerExpr_code body h2)
  | .seq comp rest =>
    obtain ⟨first, s₁, h1, k1⟩ := bind_ok h
    obtain ⟨second, s₂, h2, k2⟩ := bind_ok k1
    obtain ⟨rfl, rfl⟩ := pure_ok k2
    exact .seq (lowerComp_code comp h1) (lowerExpr_code rest h2)
  | .comp comp => exact .comp (lowerComp_code comp h)

end

/-! ### locals -/

/-- No stamps but those of `xs` get a local on the way from `fr` to `fr'`. -/
structure Allots (xs : List Ident) (fr fr' : Frame) : Prop where
  count : fr.count ≤ fr'.count
  slots : ∀ n, n ∉ stamps xs → fr'.slots.lookup n = fr.slots.lookup n

theorem Allots.refl (fr : Frame) : Allots [] fr fr := ⟨Nat.le_refl _, fun _ _ => rfl⟩

theorem Allots.trans {xs ys : List Ident} (h : Allots xs fr fr') (h' : Allots ys fr' fr'') :
    Allots (xs ++ ys) fr fr'' := by
  refine ⟨Nat.le_trans h.count h'.count, fun n hn => ?_⟩
  rw [stamps_append, List.mem_append, not_or] at hn
  rw [h'.slots n hn.2, h.slots n hn.1]

@[simp] theorem Frame.count_bind (fr : Frame) (x : Ident) : (fr.bind x).count = fr.count + 1 :=
  List.length_append

theorem allots_bind (fr : Frame) (x : Ident) : Allots [x] fr (fr.bind x) := by
  refine ⟨fr.count_bind x ▸ Nat.le_succ _, fun n hn => ?_⟩
  have hne : n ≠ x.stamp := fun h => hn (h ▸ List.mem_singleton_self _)
  show ((x.stamp, fr.count) :: fr.slots).lookup n = _
  rw [List.lookup_cons, beq_false_of_ne hne]

mutual

theorem CompCode.allots {cs : Callees} {c : Comp} {fr fr' : Frame} {code : Code}
    (h : CompCode cs c fr code fr') : Allots c.binders fr fr' := by
  match h with
  | .branch _ h1 h2 => exact h1.allots.trans h2.allots
  | .fail => exact ⟨Nat.le_refl _, fun _ _ => rfl⟩
  | .imm _ | .not _ | .neg _ | .prim2 _ _ | .adt _ | .tuple _ | .tupleGet _ | .boxNew _
  | .unbox _ | .boxSet _ _ | .call _ _ | .callForeign _ _ => exact .refl _

theorem BindingsCode.allots {cs : Callees} {bs : List Binding} {fr fr' : Frame} {code : Code}
    (h : BindingsCode cs bs fr code fr') : Allots (Binding.binders bs) fr fr' := by
  match h with
  | .nil => exact .refl _
  | .cons h1 h2 => exact h1.allots.trans ((allots_bind _ _).trans h2.allots)

theorem ExprCode.allots {cs : Callees} {e : Expr} {fr fr' : Frame} {code : Code}
    (h : ExprCode cs e fr code fr') : Allots e.binders fr fr' := by
  match h with
  | .letIn h1 h2 => exact h1.allots.trans h2.allots
  | .seq h1 h2 => exact h1.allots.trans h2.allots
  | .comp h1 => exact h1.allots

end

end AnfWasm.Lowering
