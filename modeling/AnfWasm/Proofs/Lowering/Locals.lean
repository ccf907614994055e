import AnfWasm.Proofs.Lowering.Parts
import AnfWasm.Proofs.Scope.Checker
import AnfWasm.Proofs.Wasm.Ops
import Mathlib.Data.List.Nodup

/-!
# Locals

The locals of a function are its parameters and then its let-bound identifiers, in the order in
which they are bound.  So the local of an identifier is its place in the list of all binders, and
the instructions on locals of lowered code are read off the expression (`ExprCode.localOps_eq`).

A frame keeps the local of an identifier after its scope has ended.  That no local is read before
it is set is therefore not a fact about frames: it takes the scoping rules (`ExprCode.initialized`).
-/

namespace AnfWasm

open Wasm

/-! ### instructions on locals -/

/-- the instruction reads or sets a local -/
def Wasm.Op.isLocal : Op → Bool
  | .localGet _ | .localSet _ => true
  | _ => false

def Wasm.Op.isSet : Op → Bool
  | .localSet _ => true
  | _ => false

/-- the instructions on locals of code, in order -/
def Wasm.Code.localOps (code : Code) : List Op := (Op.ofCode code).filter Op.isLocal

theorem Wasm.Code.localOps_append (a b : Code) :
    Code.localOps (a ++ b) = Code.localOps a ++ Code.localOps b := by
  rw [localOps, Op.ofCode_append, List.filter_append]
  rfl

theorem Wasm.Code.localOps_branch (thenCode elseCode : Code) :
    Code.localOps [.ifElse thenCode elseCode] =
      Code.localOps thenCode ++ Code.localOps elseCode := by
  rw [localOps, Op.ofCode_singleton, Op.ofInstr_ifElse, List.filter_append, List.cons_append,
    List.filter_cons_of_neg (by decide), List.filter_append, List.filter_cons_of_neg (by decide)]
  exact List.append_nil _

/-- what an operand reads, with the local of each stamp -/
def Imm.localOps (slot : UInt32 → Nat) : Imm → List Op
  | .id x => [.localGet (slot x.stamp)]
  | .const _ => []

mutual

def Comp.localOps (slot : UInt32 → Nat) : Comp → List Op
  | .branch cond thenArm elseArm =>
    cond.localOps slot ++ (thenArm.localOps slot ++ elseArm.localOps slot)
  | c => c.operands.flatMap (Imm.localOps slot)

def Binding.localOps (slot : UInt32 → Nat) : List Binding → List Op
  | [] => []
  | ⟨id, comp, _⟩ :: bs =>
    comp.localOps slot ++ .localSet (slot id.stamp) :: Binding.localOps slot bs

/-- Reads of operands and sets of let-bound identifiers, in the order of the text. -/
def Expr.localOps (slot : UInt32 → Nat) : Expr → List Op
  | .letIn _ bindings body => Binding.localOps slot bindings ++ body.localOps slot
  | .seq comp rest => comp.localOps slot ++ rest.localOps slot
  | .comp comp => comp.localOps slot

end

theorem Comp.localOps_of_arms {c : Comp} (hc : c.arms = []) (slot : UInt32 → Nat) :
    c.localOps slot = c.operands.flatMap (Imm.localOps slot) := by
  cases c with
  | branch => exact absurd hc (List.cons_ne_nil _ _)
  | _ => rw [Comp.localOps]; simp

/-- the local of a let-bound identifier is set -/
def setOf (slot : UInt32 → Nat) (x : Ident) : Op := .localSet (slot x.stamp)

theorem filter_isSet_imm (slot : UInt32 → Nat) (a : Imm) :
    (a.localOps slot).filter Op.isSet = [] := by
  cases a <;> rfl

theorem filter_isSet_operands (slot : UInt32 → Nat) (args : List Imm) :
    (args.flatMap (Imm.localOps slot)).filter Op.isSet = [] := by
  induction args with
  | nil => rfl
  | cons a args ih => rw [List.flatMap_cons, List.filter_append, filter_isSet_imm, ih]; rfl

mutual

theorem Comp.filter_isSet_localOps (slot : UInt32 → Nat) (c : Comp) :
    (c.localOps slot).filter Op.isSet = c.binders.map (setOf slot) := by
  match c with
  | .branch cond thenArm elseArm =>
    rw [Comp.localOps, List.filter_append, List.filter_append, filter_isSet_imm,
      thenArm.filter_isSet_localOps slot, elseArm.filter_isSet_localOps slot, Comp.binders,
      List.map_append, List.nil_append]
  | .imm _ | .prim1 _ _ | .prim2 _ _ _ | .adt _ _ _ | .tuple _ | .tupleGet _ _ | .boxNew _
  | .unbox _ | .boxSet _ _ | .call _ _ | .callForeign _ _ | .fail _ =>
    rw [Comp.localOps_of_arms rfl, filter_isSet_operands,
      Comp.binders_of_arms rfl, List.map_nil]

theorem Binding.filter_isSet_localOps (slot : UInt32 → Nat) (bs : List Binding) :
    (Binding.localOps slot bs).filter Op.isSet = (Binding.binders bs).map (setOf slot) := by
  match bs with
  | [] => rfl
  | ⟨id, comp, span⟩ :: bs =>
    rw [Binding.localOps, List.filter_append, List.filter_cons_of_pos rfl,
      comp.filter_isSet_localOps slot, Binding.filter_isSet_localOps slot bs, Binding.binders,
      List.map_append, List.map_cons, setOf]

theorem Expr.filter_isSet_localOps (slot : UInt32 → Nat) (e : Expr) :
    (e.localOps slot).filter Op.isSet = e.binders.map (setOf slot) := by
  match e with
  | .letIn kind bs body =>
    rw [Expr.localOps, List.filter_append, Binding.filter_isSet_localOps slot bs,
      body.filter_isSet_localOps slot, Expr.binders, List.map_append]
  | .seq comp rest =>
    rw [Expr.localOps, List.filter_append, comp.filter_isSet_localOps slot,
      rest.filter_isSet_localOps slot, Expr.binders, List.map_append]
  | .comp comp =>
    rw [Expr.localOps, comp.filter_isSet_localOps slot, Expr.binders]

end

namespace Lowering

variable {cs : Callees} {fr fr' : Frame} {xs : List Ident}

/-! ### the order of the locals -/

/-- the place of a stamp among binders -/
def slotOf (zs : List Ident) (n : UInt32) : Nat := (stamps zs).idxOf n

/-- The locals of the frame are those of the binders `xs`, in order. -/
structure Frame.Lists (xs : List Ident) (fr : Frame) : Prop where
  count : fr.count = xs.length
  slot : ∀ n i, fr.slots.lookup n = some i → (stamps xs)[i]? = some n

theorem Frame.Lists.bind (h : fr.Lists xs) (x : Ident) : (fr.bind x).Lists (xs ++ [x]) := by
  refine ⟨?_, fun n i hi => ?_⟩
  · rw [List.length_append, ← h.count, Frame.count_bind]
    rfl
  · change ((x.stamp, fr.count) :: fr.slots).lookup n = some i at hi
    rw [List.lookup_cons] at hi
    rw [stamps_append]
    split at hi
    · rename_i hn
      obtain rfl := Option.some.inj hi
      have hlen : fr.count = (stamps xs).length := by rw [h.count, stamps, List.length_map]
      rw [hlen, eq_of_beq hn]
      exact List.getElem?_concat_length
    · exact getElem?_of_prefix (List.prefix_append _ _) (h.slot n i hi)

theorem lists_ofParams (params : List Ident) : (Frame.ofParams params).Lists params := by
  have h : ∀ (ys : List Ident) {xs : List Ident} {fr : Frame}, fr.Lists xs →
      (ys.foldl Frame.bind fr).Lists (xs ++ ys) := by
    intro ys
    induction ys with
    | nil =>
      intro xs fr hfr
      rwa [List.append_nil]
    | cons y ys ih =>
      intro xs fr hfr
      rw [List.append_cons]
      exact ih (hfr.bind y)
  have hstart : Frame.start.Lists [] := ⟨rfl, fun n i hi => absurd hi (by simp [Frame.start])⟩
  exact h params hstart

mutual

theorem CompCode.lists {cs : Callees} {c : Comp} {fr fr' : Frame} {code : Code} {xs : List Ident}
    (h : CompCode cs c fr code fr') (hfr : fr.Lists xs) : fr'.Lists (xs ++ c.binders) := by
  match h with
  | .branch _ h1 h2 =>
    have h2 := h2.lists (h1.lists hfr)
    rwa [List.append_assoc] at h2
  | .fail =>
    rw [Comp.binders_of_arms rfl, List.append_nil]
    exact ⟨hfr.count, hfr.slot⟩
  | .imm _ | .not _ | .neg _ | .prim2 _ _ | .adt _ | .tuple _ | .tupleGet _ | .boxNew _
  | .unbox _ | .boxSet _ _ | .call _ _ | .callForeign _ _ =>
    rwa [Comp.binders_of_arms rfl, List.append_nil]

theorem BindingsCode.lists {cs : Callees} {bs : List Binding} {fr fr' : Frame} {code : Code}
    {xs : List Ident} (h : BindingsCode cs bs fr code fr') (hfr : fr.Lists xs) :
    fr'.Lists (xs ++ Binding.binders bs) := by
  match h with
  | .nil => rwa [Binding.binders, List.append_nil]
  | .cons h1 h2 =>
    have h2 := h2.lists ((h1.lists hfr).bind _)
    rwa [← List.append_cons, List.append_assoc] at h2

theorem ExprCode.lists {cs : Callees} {e : Expr} {fr fr' : Frame} {code : Code} {xs : List Ident}
    (h : ExprCode cs e fr code fr') (hfr : fr.Lists xs) : fr'.Lists (xs ++ e.binders) := by
  match h with
  | .letIn h1 h2 =>
    have h2 := h2.lists (h1.lists hfr)
    rwa [List.append_assoc] at h2
  | .seq h1 h2 =>
    have h2 := h2.lists (h1.lists hfr)
    rwa [List.append_assoc] at h2
  | .comp h1 => exact h1.lists hfr

end

section
variable {zs : List Ident}

/-- among binders that go on from those of the frame, a stamp has the place of its local -/
theorem Frame.Lists.slotOf_eq (hfr : fr.Lists xs) (hn : (stamps zs).Nodup) (hz : xs <+: zs)
    {n : UInt32} {i : Nat} (hi : fr.slots.lookup n = some i) : slotOf zs n = i := by
  have hget : (stamps zs)[i]? = some n := getElem?_of_prefix (hz.map _) (hfr.slot n i hi)
  obtain ⟨hlt, rfl⟩ := List.getElem?_eq_some_iff.mp hget
  exact hn.idxOf_getElem i hlt

theorem Frame.Lists.slotOf_next (hfr : fr.Lists xs) (hn : (stamps zs).Nodup) {x : Ident}
    (hz : xs ++ [x] <+: zs) : slotOf zs x.stamp = fr.count :=
  (hfr.bind x).slotOf_eq hn hz List.lookup_cons_self

end

/-! ### the locals of lowered code -/

theorem Pushes.one {a : Imm} {code : Code} (h : Pushes fr a code) : PushesAll fr [a] code := by
  have h1 := PushesAll.cons h .nil
  rwa [List.append_nil] at h1

theorem Pushes.two {a b : Imm} {left right : Code} (h : Pushes fr a left)
    (h' : Pushes fr b right) : PushesAll fr [a, b] (left ++ right) := .cons h h'.one

theorem Pushes.localOps_eq {slot : UInt32 → Nat}
    (hs : ∀ n i, fr.slots.lookup n = some i → slot n = i) {a : Imm} {code : Code}
    (h : Pushes fr a code) : Code.localOps code = a.localOps slot := by
  cases h with
  | const c => rfl
  | slot hi => rw [Imm.localOps, hs _ _ hi]; rfl

theorem PushesAll.localOps_eq {slot : UInt32 → Nat}
    (hs : ∀ n i, fr.slots.lookup n = some i → slot n = i) {args : List Imm} {code : Code}
    (h : PushesAll fr args code) : Code.localOps code = args.flatMap (Imm.localOps slot) := by
  induction h with
  | nil => rfl
  | cons h _ ih => rw [Code.localOps_append, h.localOps_eq hs, ih, List.flatMap_cons]

theorem PushesAll.lookup_of_mem {args : List Imm} {code : Code} (h : PushesAll fr args code)
    {i : Nat} (hi : .localGet i ∈ Code.localOps code) :
    ∃ x, Imm.id x ∈ args ∧ fr.slots.lookup x.stamp = some i := by
  induction h with
  | nil => exact absurd hi List.not_mem_nil
  | cons h _ ih =>
    rw [Code.localOps_append, List.mem_append] at hi
    rcases hi with hi | hi
    · cases h with
      | const c => exact absurd hi List.not_mem_nil
      | slot hx =>
        obtain rfl := Op.localGet.inj (List.mem_singleton.mp hi)
        exact ⟨_, List.mem_cons_self, hx⟩
    · obtain ⟨x, hx, hlookup⟩ := ih hi
      exact ⟨x, List.mem_cons_of_mem _ hx, hlookup⟩

def Field.imm? : Field → Option Imm
  | .imm a => some a
  | .const _ => none

theorem Stores.pushes {index : Nat} {fields : List Field} {code : Code}
    (h : Stores fr index fields code) : ∃ push, PushesAll fr (fields.filterMap Field.imm?) push ∧
      Code.localOps code = Code.localOps push := by
  induction h with
  | nil => exact ⟨[], .nil, rfl⟩
  | @cons index f fs value rest hf _ ih =>
    obtain ⟨push, hpush, heq⟩ := ih
    have hcode : Code.localOps
        (.globalGet heapPointer :: value ++ .store (wordSize * index) :: rest) =
          Code.localOps value ++ Code.localOps rest :=
      Code.localOps_append (.globalGet heapPointer :: value) (.store (wordSize * index) :: rest)
    cases hf with
    | const n => exact ⟨push, hpush, hcode.trans heq⟩
    | imm ha => exact ⟨value ++ push, .cons ha hpush, by rw [hcode, Code.localOps_append, heq]⟩

theorem Allocates.pushes {fields : List Field} {code : Code} (h : Allocates fr fields code) :
    ∃ push, PushesAll fr (fields.filterMap Field.imm?) push ∧
      Code.localOps code = Code.localOps push := by
  obtain ⟨hstores⟩ := h
  obtain ⟨push, hpush, heq⟩ := hstores.pushes
  refine ⟨push, hpush, ?_⟩
  rw [Code.localOps_append, ← heq]
  exact List.append_nil _

theorem filterMap_tupleFields (args : List Imm) :
    (tupleFields args).filterMap Field.imm? = args := by
  rw [tupleFields, List.filterMap_cons_none rfl, List.filterMap_map]
  exact List.filterMap_some

/-- the tags before the fields of a variant are no operands -/
theorem filterMap_adtFields (typeTag variant : UInt32) (args : List Imm) :
    (adtFields typeTag variant args).filterMap Field.imm? = args :=
  filterMap_tupleFields args

/-- a computation without arms reads the locals that pushing its operands does -/
theorem CompCode.pushes {c : Comp} {code : Code} (h : CompCode cs c fr code fr')
    (hc : c.arms = []) :
    ∃ push, PushesAll fr c.operands push ∧ Code.localOps code = Code.localOps push := by
  have hend : ∀ (code : Code) (i : Instr), Code.localOps [i] = [] →
      Code.localOps (code ++ [i]) = Code.localOps code := by
    intro code i hi
    rw [Code.localOps_append, hi, List.append_nil]
  match h with
  | .imm ha => exact ⟨_, ha.one, rfl⟩
  | .not ha | .tupleGet ha | .unbox ha => exact ⟨_, ha.one, hend _ _ rfl⟩
  | .neg ha => exact ⟨_, ha.one, hend _ _ rfl⟩
  | .prim2 ha hb => exact ⟨_, ha.two hb, hend _ _ rfl⟩
  | .boxSet ha hb =>
    refine ⟨_, ha.two hb, ?_⟩
    rw [Code.localOps_append]
    exact List.append_nil _
  | .call _ hargs | .callForeign _ hargs => exact ⟨_, hargs, hend _ _ rfl⟩
  | .adt hobj =>
    obtain ⟨push, hpush, heq⟩ := hobj.pushes
    rw [filterMap_adtFields] at hpush
    exact ⟨push, hpush, heq⟩
  | .tuple hobj =>
    obtain ⟨push, hpush, heq⟩ := hobj.pushes
    rw [filterMap_tupleFields] at hpush
    exact ⟨push, hpush, heq⟩
  | .boxNew hobj => exact hobj.pushes
  | .fail => exact ⟨[], .nil, rfl⟩
  | .branch _ _ _ => exact absurd hc (List.cons_ne_nil _ _)

mutual

theorem CompCode.localOps_eq {cs : Callees} {c : Comp} {fr fr' : Frame} {code : Code}
    {xs zs : List Ident} (h : CompCode cs c fr code fr') (hfr : fr.Lists xs)
    (hn : (stamps zs).Nodup) (hz : xs ++ c.binders <+: zs) :
    Code.localOps code = c.localOps (slotOf zs) := by
  have hs : ∀ n i, fr.slots.lookup n = some i → slotOf zs n = i := fun n i hi =>
    hfr.slotOf_eq hn ((List.prefix_append _ _).trans hz) hi
  match c, h with
  | .branch cond thenArm elseArm, .branch hcond h1 h2 =>
    rw [Comp.binders, ← List.append_assoc] at hz
    rw [Code.localOps_append, Code.localOps_branch, hcond.localOps_eq hs,
      h1.localOps_eq hfr hn ((List.prefix_append _ _).trans hz),
      h2.localOps_eq (h1.lists hfr) hn hz, Comp.localOps]
  | .imm _, h | .prim1 _ _, h | .prim2 _ _ _, h | .adt _ _ _, h | .tuple _, h | .tupleGet _ _, h
  | .boxNew _, h | .unbox _, h | .boxSet _ _, h | .call _ _, h | .callForeign _ _, h
  | .fail _, h =>
    obtain ⟨push, hpush, heq⟩ := h.pushes rfl
    rw [heq, hpush.localOps_eq hs, Comp.localOps_of_arms rfl]

theorem BindingsCode.localOps_eq {cs : Callees} {bs : List Binding} {fr fr' : Frame} {code : Code}
    {xs zs : List Ident} (h : BindingsCode cs bs fr code fr') (hfr : fr.Lists xs)
    (hn : (stamps zs).Nodup) (hz : xs ++ Binding.binders bs <+: zs) :
    Code.localOps code = Binding.localOps (slotOf zs) bs := by
  match bs, h with
  | [], .nil => rfl
  | ⟨id, comp, span⟩ :: bs, .cons h1 h2 =>
    rw [Binding.binders, ← List.append_assoc, List.append_cons] at hz
    have hz₂ := (List.prefix_append _ _).trans hz
    have h1' := h1.localOps_eq hfr hn ((List.prefix_append _ _).trans hz₂)
    have h2' := h2.localOps_eq ((h1.lists hfr).bind id) hn hz
    rw [Code.localOps_append, h1', Binding.localOps, ← h2', (h1.lists hfr).slotOf_next hn hz₂]
    rfl

theorem ExprCode.localOps_eq {cs : Callees} {e : Expr} {fr fr' : Frame} {code : Code}
    {xs zs : List Ident} (h : ExprCode cs e fr code fr') (hfr : fr.Lists xs)
    (hn : (stamps zs).Nodup) (hz : xs ++ e.binders <+: zs) :
    Code.localOps code = e.localOps (slotOf zs) := by
  match h with
  | .letIn h1 h2 =>
    rw [Expr.binders, ← List.append_assoc] at hz
    rw [Code.localOps_append, h1.localOps_eq hfr hn ((List.prefix_append _ _).trans hz),
      h2.localOps_eq (h1.lists hfr) hn hz, Expr.localOps]
  | .seq h1 h2 =>
    rw [Expr.binders, ← List.append_assoc] at hz
    have h1' := h1.localOps_eq hfr hn ((List.prefix_append _ _).trans hz)
    have h2' := h2.localOps_eq (h1.lists hfr) hn hz
    rw [Code.localOps_append, h1', Expr.localOps, ← h2']
    rfl
  | .comp h1 => exact h1.localOps_eq hfr hn hz

end

/-! ### what is set before it is read -/

/-- what is known, or set on the path -/
def After (known : Nat → Prop) (path : List Op) (i : Nat) : Prop := known i ∨ .localSet i ∈ path

/-- Each local that the path reads is known, or set before it on the path. -/
def Initialized (known : Nat → Prop) (path : List Op) : Prop :=
  ∀ before i after, path = before ++ .localGet i :: after → After known before i

section
variable {known : Nat → Prop} {a b path : List Op}

theorem initialized_of_reads (h : ∀ i, .localGet i ∈ path → known i) : Initialized known path := by
  rintro before i after rfl
  exact .inl (h i (List.mem_append_right _ List.mem_cons_self))

theorem after_append : After known (a ++ b) = After (After known a) b := by
  funext i
  simp only [After, List.mem_append, or_assoc]

theorem Initialized.append (ha : Initialized known a) (hb : Initialized (After known a) b) :
    Initialized known (a ++ b) := by
  have hmid : ∀ c i after, b = c ++ .localGet i :: after → After known (a ++ c) i := by
    intro c i after hc
    rw [after_append]
    exact hb c i after hc
  intro before i after h
  rcases List.append_eq_append_iff.mp h with ⟨c, rfl, hc⟩ | ⟨c, rfl, hc⟩
  · exact hmid c i after hc
  · cases c with
    | nil =>
      rw [List.append_nil] at hmid
      have hi := hmid [] i after hc.symm
      rwa [List.append_nil] at hi
    | cons op c =>
      obtain ⟨rfl, rfl⟩ := List.cons.inj hc
      exact ha before i c rfl

theorem Initialized.cons {op : Op} (hop : ∀ i, op ≠ .localGet i)
    (h : Initialized (After known [op]) path) : Initialized known (op :: path) := by
  have hone : Initialized known [op] :=
    initialized_of_reads fun i hi => absurd (List.mem_singleton.mp hi).symm (hop i)
  exact hone.append h

/-- What is in scope and has a local by now has been set. -/
def Ready (zs xs Γ : List Ident) (known : Nat → Prop) : Prop :=
  ∀ n ∈ stamps Γ, n ∈ stamps xs → known (slotOf zs n)

variable {zs Γ : List Ident}

theorem Ready.after (h : Ready zs xs Γ known) (path : List Op) : Ready zs xs Γ (After known path) :=
  fun n hn hx => .inl (h n hn hx)

/-- binders that are out of scope add nothing -/
theorem Ready.skip (h : Ready zs xs Γ known) {ys : List Ident}
    (hys : ∀ n ∈ stamps ys, n ∉ stamps Γ) : Ready zs (xs ++ ys) Γ known := by
  intro n hn hx
  rw [stamps_append, List.mem_append] at hx
  exact h n hn (hx.resolve_right fun hy => hys n hy hn)

/-- the next local is set, and its binder comes into scope or is there already -/
theorem Ready.bind (h : Ready zs xs Γ known) (hfr : fr.Lists xs) (hn : (stamps zs).Nodup)
    {id : Ident} (hz : xs ++ [id] <+: zs) (kind : LetKind) :
    Ready zs (xs ++ [id]) (kind.reach Γ id) (After known [.localSet fr.count]) := by
  intro n hΓ hx
  by_cases hid : n = id.stamp
  · rw [hid, hfr.slotOf_next hn hz]
    exact .inr (List.mem_singleton_self _)
  · have hΓ' : n ∈ stamps Γ := by
      cases kind with
      | sequential => exact (List.mem_cons.mp hΓ).resolve_left hid
      | recursive => exact hΓ
    rw [stamps_append, List.mem_append] at hx
    exact .inl (h n hΓ' (hx.resolve_right fun hy => hid (List.mem_singleton.mp hy)))

end

/-- binders of a function that come one after the other are apart -/
theorem not_mem_of_later {zs xs ys : List Ident} (hn : (stamps zs).Nodup) (hz : xs ++ ys <+: zs)
    {n : UInt32} (hx : n ∈ stamps xs) : n ∉ stamps ys := by
  have hd : (stamps (xs ++ ys)).Nodup := hn.sublist (hz.sublist.map Ident.stamp)
  rw [stamps_append] at hd
  exact fun hy => (List.nodup_append.mp hd).2.2 n hx n hy rfl

theorem mem_binders_of_rhs {bs : List Binding} {n : UInt32} (h : n ∈ stamps (rhsBinders bs)) :
    n ∈ stamps (Binding.binders bs) := by
  refine ((binders_perm bs).map Ident.stamp).subset ?_
  rw [List.map_append]
  exact List.mem_append_right _ h

theorem mem_binders_of_ids {bs : List Binding} {n : UInt32} (h : n ∈ stamps (ids bs)) :
    n ∈ stamps (Binding.binders bs) :=
  List.map_subset _ (ids_subset_binders bs) h

/-- a group is in scope of its right-hand sides, but none of its members has a local yet -/
theorem Ready.entry {zs Γ : List Ident} {known : Nat → Prop} (h : Ready zs xs Γ known)
    (hn : (stamps zs).Nodup) {bs : List Binding} (hz : xs ++ Binding.binders bs <+: zs)
    (kind : LetKind) : Ready zs xs (kind.entry Γ bs) known := by
  cases kind with
  | sequential => exact h
  | recursive =>
    intro n hscope hx
    refine h n ((mem_stamps_reverse_append.mp hscope).resolve_left fun hids => ?_) hx
    exact not_mem_of_later hn hz hx (mem_binders_of_ids hids)

theorem not_mem_entry {zs Γ : List Ident} (hn : (stamps zs).Nodup) {bs : List Binding}
    (hz : xs ++ Binding.binders bs <+: zs) {kind : LetKind}
    (hΓ : ∀ n ∈ stamps (rhsBinders bs), n ∉ stamps Γ) :
    ∀ n ∈ stamps (rhsBinders bs), n ∉ stamps (kind.entry Γ bs) := by
  cases kind with
  | sequential => exact hΓ
  | recursive =>
    intro n hrhs hscope
    rcases mem_stamps_reverse_append.mp hscope with hids | hscope
    · have hd : (stamps (Binding.binders bs)).Nodup :=
        (hn.sublist (hz.sublist.map Ident.stamp)).sublist
          ((List.sublist_append_right _ _).map Ident.stamp)
      have hd' := ((binders_perm bs).map Ident.stamp).nodup_iff.mpr hd
      rw [List.map_append] at hd'
      exact (List.nodup_append.mp hd').2.2 n hids n hrhs rfl
    · exact hΓ n hrhs hscope

/-- code that only reads operands in scope -/
theorem PushesAll.initialized {args : List Imm} {push code : Code} {zs Γ : List Ident}
    {known : Nat → Prop} {path : List Op} (h : PushesAll fr args push)
    (hcode : Code.localOps code = Code.localOps push) (hfr : fr.Lists xs)
    (hn : (stamps zs).Nodup) (hz : xs <+: zs) (hscope : ∀ x, Imm.id x ∈ args → InScope Γ x)
    (hr : Ready zs xs Γ known) (hp : path ∈ Code.paths code) : Initialized known path := by
  refine initialized_of_reads fun i hi => ?_
  have hread : .localGet i ∈ Code.localOps code :=
    List.mem_filter.mpr ⟨(Code.sublist_of_mem_paths code hp).subset hi, rfl⟩
  obtain ⟨x, hx, hlookup⟩ := h.lookup_of_mem (hcode ▸ hread)
  have hlisted : x.stamp ∈ stamps xs := List.mem_of_getElem? (hfr.slot _ _ hlookup)
  exact hfr.slotOf_eq hn hz hlookup ▸ hr x.stamp (inScope_iff.mp (hscope x hx)) hlisted

mutual

theorem CompCode.initialized {cs : Callees} {c : Comp} {fr fr' : Frame} {code : Code}
    {zs xs Γ : List Ident} {known : Nat → Prop} {path : List Op} (h : CompCode cs c fr code fr')
    (hfr : fr.Lists xs) (hn : (stamps zs).Nodup) (hz : xs ++ c.binders <+: zs)
    (hat : ∀ Δ x, c.At Γ Δ (.operand x) → InScope Δ x)
    (hΓ : ∀ n ∈ stamps c.binders, n ∉ stamps Γ) (hr : Ready zs xs Γ known)
    (hp : path ∈ Code.paths code) : Initialized known path := by
  have hz₀ : xs <+: zs := (List.prefix_append _ _).trans hz
  have hscope : ∀ x, Imm.id x ∈ c.operands → InScope Γ x := fun x hx => hat Γ x (.operand hx)
  match c, h with
  | .branch cond thenArm elseArm, .branch hcond h1 h2 =>
    rw [Comp.binders, ← List.append_assoc] at hz
    have hz₁ := (List.prefix_append _ _).trans hz
    have hthen : ∀ n ∈ stamps thenArm.binders, n ∉ stamps Γ := fun n hn => hΓ n (by
      rw [Comp.binders, stamps_append]
      exact List.mem_append_left _ hn)
    have helse : ∀ n ∈ stamps elseArm.binders, n ∉ stamps Γ := fun n hn => hΓ n (by
      rw [Comp.binders, stamps_append]
      exact List.mem_append_right _ hn)
    obtain ⟨x, hx, rest, hrest, rfl⟩ := Code.mem_paths_append.mp hp
    rw [Code.paths_singleton] at hrest
    obtain ⟨y, hy, rfl⟩ := Code.mem_paths_branch.mp hrest
    refine (hcond.one.initialized rfl hfr hn hz₀ hscope hr hx).append (.cons (by simp) ?_)
    have hr' := (hr.after x).after [.branch]
    rcases hy with hy | hy
    · exact h1.initialized hfr hn hz₁ (fun Δ x ht => hat Δ x (.thenArm ht)) hthen hr' hy
    · -- the locals of the other arm are allotted, but none of them is in scope
      exact h2.initialized (h1.lists hfr) hn hz (fun Δ x ht => hat Δ x (.elseArm ht)) helse
        (hr'.skip hthen) hy
  | .imm _, h | .prim1 _ _, h | .prim2 _ _ _, h | .adt _ _ _, h | .tuple _, h | .tupleGet _ _, h
  | .boxNew _, h | .unbox _, h | .boxSet _ _, h | .call _ _, h | .callForeign _ _, h
  | .fail _, h =>
    obtain ⟨push, hpush, heq⟩ := h.pushes rfl
    exact hpush.initialized heq hfr hn hz₀ hscope hr hp

theorem BindingsCode.initialized {cs : Callees} {bs : List Binding} {kind : LetKind}
    {fr fr' : Frame} {code : Code} {zs xs Γ : List Ident} {known : Nat → Prop} {path : List Op}
    (h : BindingsCode cs bs fr code fr') (hfr : fr.Lists xs) (hn : (stamps zs).Nodup)
    (hz : xs ++ Binding.binders bs <+: zs)
    (hat : ∀ Δ x, Binding.At kind Γ bs Δ (.operand x) → InScope Δ x)
    (hΓ : ∀ n ∈ stamps (rhsBinders bs), n ∉ stamps Γ) (hr : Ready zs xs Γ known)
    (hp : path ∈ Code.paths code) : Initialized known path ∧
      Ready zs (xs ++ Binding.binders bs) (kind.exit Γ bs) (After known path) := by
  match bs, h with
  | [], .nil =>
    obtain rfl := List.mem_singleton.mp hp
    refine ⟨initialized_of_reads fun i hi => absurd hi List.not_mem_nil, ?_⟩
    rw [Binding.binders, List.append_nil]
    exact hr.after []
  | ⟨id, comp, span⟩ :: bs, .cons h1 h2 =>
    rw [Binding.binders, ← List.append_assoc, List.append_cons] at hz
    have hz₂ := (List.prefix_append _ _).trans hz
    have hz₁ := (List.prefix_append _ _).trans hz₂
    rw [rhsBinders, List.flatMap_cons, stamps_append] at hΓ
    obtain ⟨x, hx, rest, hset, rfl⟩ := Code.mem_paths_append.mp hp
    obtain ⟨s, hs, y, hy, rfl⟩ := Code.mem_paths_cons.mp hset
    obtain rfl := List.mem_singleton.mp hs
    have hcomp : ∀ n ∈ stamps comp.binders, n ∉ stamps Γ :=
      fun n hn => hΓ n (List.mem_append_left _ hn)
    have hrest : ∀ n ∈ stamps (rhsBinders bs), n ∉ stamps (kind.reach Γ id) := by
      intro n hbs hreach
      have hne : n ≠ id.stamp := fun he => not_mem_of_later hn hz
        (mem_stamps.mpr ⟨id, List.mem_append_right _ (List.mem_singleton_self _), he.symm⟩)
        (mem_binders_of_rhs hbs)
      refine hΓ n (List.mem_append_right _ hbs) ?_
      cases kind with
      | sequential => exact (List.mem_cons.mp hreach).resolve_left hne
      | recursive => exact hreach
    have hfr₁ := h1.lists hfr
    have hr₁ := ((hr.after x).skip hcomp).bind hfr₁ hn hz₂ kind
    obtain ⟨hinit, hready⟩ := h2.initialized (hfr₁.bind id) hn hz
      (fun Δ x ht => hat Δ x (.inr ht)) hrest hr₁ hy
    constructor
    · exact (h1.initialized hfr hn hz₁ (fun Δ x ht => hat Δ x (.inl ht)) hcomp hr hx).append
        (.cons (by simp) hinit)
    · rw [Binding.binders, ← List.append_assoc, List.append_cons, after_append, after_append]
      exact hready

theorem ExprCode.initialized {cs : Callees} {e : Expr} {fr fr' : Frame} {code : Code}
    {zs xs Γ : List Ident} {known : Nat → Prop} {path : List Op} (h : ExprCode cs e fr code fr')
    (hfr : fr.Lists xs) (hn : (stamps zs).Nodup) (hz : xs ++ e.binders <+: zs)
    (hat : ∀ Δ x, e.At Γ Δ (.operand x) → InScope Δ x)
    (hΓ : ∀ n ∈ stamps e.binders, n ∉ stamps Γ) (hr : Ready zs xs Γ known)
    (hp : path ∈ Code.paths code) : Initialized known path := by
  match e, h with
  | .letIn kind bs body, .letIn h1 h2 =>
    obtain ⟨x, hx, y, hy, rfl⟩ := Code.mem_paths_append.mp hp
    rw [Expr.binders, ← List.append_assoc] at hz
    rw [Expr.binders, stamps_append] at hΓ
    have hz₁ := (List.prefix_append _ _).trans hz
    have hbs : ∀ n ∈ stamps (rhsBinders bs), n ∉ stamps Γ :=
      fun n hn => hΓ n (List.mem_append_left _ (mem_binders_of_rhs hn))
    have hat₁ : ∀ Δ x, Binding.At kind (kind.entry Γ bs) bs Δ (.operand x) → InScope Δ x :=
      fun Δ x ht => hat Δ x (Expr.at_let.mpr (.inl ht))
    obtain ⟨hinit, hready⟩ := h1.initialized hfr hn hz₁ hat₁ (not_mem_entry hn hz₁ hbs)
      (hr.entry hn hz₁ kind) hx
    rw [LetKind.exit_entry] at hready
    refine hinit.append (h2.initialized (h1.lists hfr) hn hz
      (fun Δ x ht => hat Δ x (.body ht)) (fun n hbody hscope => ?_) hready hy)
    rcases mem_stamps_reverse_append.mp hscope with hids | hscope
    · have hxs := List.mem_append_right (stamps xs) (mem_binders_of_ids hids)
      rw [← stamps_append] at hxs
      exact not_mem_of_later hn hz hxs hbody
    · exact hΓ n (List.mem_append_right _ hbody) hscope
  | .seq comp rest, .seq h1 h2 =>
    obtain ⟨x, hx, rest, hdrop, rfl⟩ := Code.mem_paths_append.mp hp
    obtain ⟨s, hs, y, hy, rfl⟩ := Code.mem_paths_cons.mp hdrop
    obtain rfl := List.mem_singleton.mp hs
    rw [Expr.binders, ← List.append_assoc] at hz
    rw [Expr.binders, stamps_append] at hΓ
    have hz₁ := (List.prefix_append _ _).trans hz
    have hcomp := fun n hn => hΓ n (List.mem_append_left _ hn)
    have hr' := ((hr.after x).after [.drop]).skip hcomp
    have hrest := h2.initialized (h1.lists hfr) hn hz (fun Δ x ht => hat Δ x (.seqRest ht))
      (fun n hn => hΓ n (List.mem_append_right _ hn)) hr' hy
    exact (h1.initialized hfr hn hz₁ (fun Δ x ht => hat Δ x (.seqComp ht)) hcomp hr hx).append
      (.cons (by simp) hrest)
  | .comp comp, .comp h1 =>
    exact h1.initialized hfr hn hz (fun Δ x ht => hat Δ x (.comp ht)) hΓ hr hp

end

/-! ### functions -/

/-- What the locals of a function are for. -/
structure SoundLocals (params : List Ident) (body : Expr) (d : FuncDef) : Prop where
  /-- a local for each parameter and for each let binding -/
  count : d.arity = params.length ∧ d.locals = body.binders.length
  param : ∀ i x, params[i]? = some x → slotOf (params ++ body.binders) x.stamp = i
  binder : ∀ x ∈ body.binders, d.arity ≤ slotOf (params ++ body.binders) x.stamp ∧
    slotOf (params ++ body.binders) x.stamp < d.arity + d.locals
  own : ∀ x ∈ params ++ body.binders, ∀ y ∈ params ++ body.binders,
    slotOf (params ++ body.binders) x.stamp = slotOf (params ++ body.binders) y.stamp → x = y
  /-- operands are read from their locals, and right-hand sides go to those of their binders -/
  localOps : Code.localOps d.code = body.localOps (slotOf (params ++ body.binders))
  once : ∀ x ∈ body.binders,
    (Op.ofCode d.code).count (.localSet (slotOf (params ++ body.binders) x.stamp)) = 1
  initialized : ∀ path ∈ Code.paths d.code, ∀ before i after,
    path = before ++ .localGet i :: after → i < d.arity ∨ .localSet i ∈ before

section
variable {zs : List Ident}

theorem slotOf_getElem (hn : (stamps zs).Nodup) {i : Nat} {x : Ident} (hi : zs[i]? = some x) :
    slotOf zs x.stamp = i := by
  obtain ⟨hlt, rfl⟩ := List.getElem?_eq_some_iff.mp hi
  have h := hn.idxOf_getElem i (by rwa [stamps, List.length_map])
  simpa [slotOf, stamps] using h

theorem slotOf_inj (hn : (stamps zs).Nodup) {x y : Ident} (hx : x ∈ zs) (hy : y ∈ zs)
    (h : slotOf zs x.stamp = slotOf zs y.stamp) : x = y := by
  obtain ⟨i, hi⟩ := List.mem_iff_getElem?.mp hx
  obtain ⟨j, hj⟩ := List.mem_iff_getElem?.mp hy
  rw [slotOf_getElem hn hi, slotOf_getElem hn hj] at h
  subst h
  exact Option.some.inj (hi.symm.trans hj)

/-- the sets of an expression are those of its binders, and binders have different locals -/
theorem count_localSet {code : Code} {e : Expr} (hn : (stamps zs).Nodup)
    (hsub : e.binders.Sublist zs) (hcode : Code.localOps code = e.localOps (slotOf zs))
    {x : Ident} (hx : x ∈ e.binders) :
    (Op.ofCode code).count (.localSet (slotOf zs x.stamp)) = 1 := by
  have hbinders : e.binders.Nodup := (List.Nodup.of_map _ hn).sublist hsub
  have hsets : (e.binders.map (setOf (slotOf zs))).Nodup :=
    hbinders.map_on fun x hx y hy h =>
      slotOf_inj hn (hsub.subset hx) (hsub.subset hy) (Op.localSet.inj h)
  calc (Op.ofCode code).count (.localSet (slotOf zs x.stamp))
      = (Code.localOps code).count (.localSet (slotOf zs x.stamp)) :=
        (List.count_filter rfl).symm
    _ = ((e.localOps (slotOf zs)).filter Op.isSet).count (.localSet (slotOf zs x.stamp)) := by
        rw [hcode]
        exact (List.count_filter rfl).symm
    _ = (e.binders.map (setOf (slotOf zs))).count (setOf (slotOf zs) x) := by
        rw [Expr.filter_isSet_localOps]
        rfl
    _ = 1 := List.count_eq_one_of_mem hsets (List.mem_map_of_mem hx)

end

theorem BodyCode.soundLocals {params : List Ident} {body : Expr} {d : FuncDef}
    (h : BodyCode cs params body d) (hn : (stamps (params ++ body.binders)).Nodup)
    (hat : ∀ Δ x, body.At params.reverse Δ (.operand x) → InScope Δ x) :
    SoundLocals params body d := by
  obtain ⟨harity, fr, hcode, hcount⟩ := h
  have hfr := lists_ofParams params
  have hops := hcode.localOps_eq hfr hn List.prefix_rfl
  have hlocals : d.locals = body.binders.length := by
    have hend := (hcode.lists hfr).count
    rw [hcount, List.length_append] at hend
    omega
  refine ⟨⟨harity, hlocals⟩, fun i x hi => ?_, fun x hx => ?_, fun x hx y hy => slotOf_inj hn hx hy,
    hops, fun x hx => count_localSet hn (List.sublist_append_right _ _) hops hx,
    fun path hp => ?_⟩
  · have hget := getElem?_of_prefix (List.prefix_append params body.binders) hi
    exact slotOf_getElem hn hget
  · obtain ⟨j, hj⟩ := List.mem_iff_getElem?.mp hx
    have hlt := (List.getElem?_eq_some_iff.mp hj).1
    have hget : (params ++ body.binders)[params.length + j]? = some x := by
      rw [List.getElem?_append_right (Nat.le_add_right _ _), Nat.add_sub_cancel_left, hj]
    rw [slotOf_getElem hn hget, harity, hlocals]
    omega
  · have hready : Ready (params ++ body.binders) params params.reverse (· < d.arity) := by
      intro n _ hx
      obtain ⟨x, hparam, rfl⟩ := mem_stamps.mp hx
      obtain ⟨i, hi⟩ := List.mem_iff_getElem?.mp hparam
      have hget := getElem?_of_prefix (List.prefix_append params body.binders) hi
      rw [slotOf_getElem hn hget, harity]
      exact (List.getElem?_eq_some_iff.mp hi).1
    refine hcode.initialized hfr hn List.prefix_rfl hat (fun n hb hp => ?_) hready hp
    have hparams : n ∈ stamps params := by
      rwa [stamps, List.map_reverse, List.mem_reverse] at hp
    exact not_mem_of_later hn List.prefix_rfl hparams hb

/-- the parameters and the body of each function of the module -/
def bodiesOf (p : Program) : List (List Ident × Expr) :=
  p.functions.map (fun f => (f.params, f.body)) ++ [([], p.body)]

/-- **No local is read before it is set.**  In each function of a program that keeps the scoping
rules, a let-bound identifier has a local of its own that one instruction sets, there are as many
locals as parameters and let bindings, and whichever way the branches go, what is read is a
parameter or was set on the way. -/
theorem lower_locals {p : Program} {m : Module} (hp : p.check = .ok ())
    (hm : p.lower.1 = .ok m) :
    List.Forall₂ (fun (f : List Ident × Expr) d => SoundLocals f.1 f.2 d) (bodiesOf p)
      m.functions := by
  have hwf := p.check_ok_iff.mp hp
  obtain ⟨cs, h⟩ := lower_ok hm
  obtain ⟨ds, entry, hfunctions, hds, hentry⟩ := h.functions
  rw [hfunctions]
  refine List.rel_append ?_ (.cons ?_ .nil)
  · rw [List.forall₂_map_left_iff]
    have hall := (List.forall₂_and_left _ _).mpr ⟨fun f (hf : f ∈ p.functions) => hf, hds⟩
    refine hall.imp fun f d hfd => hfd.2.soundLocals (hwf.fresh_func hfd.1).1 fun Δ x hx => ?_
    exact hwf.operand (.inl ⟨f, hfd.1, hx⟩)
  · exact hentry.soundLocals hwf.fresh_body.1 fun Δ x hx => hwf.operand (.inr hx)

/-- binds in both arms of a branch in a group, and in a right-hand side of a right-hand side -/
def thicket : Program where
  source := none
  imports := []
  functions := [{
    id := ⟨"f", 0⟩
    params := [⟨"a", 1⟩, ⟨"b", 2⟩]
    body := .letIn .recursive [
        ⟨⟨"x", 3⟩, .branch (.id ⟨"a", 1⟩)
          (.letOne ⟨"y", 4⟩ (.tuple [.id ⟨"b", 2⟩]) (.imm (.id ⟨"y", 4⟩)))
          (.letOne ⟨"z", 5⟩
            (.branch (.id ⟨"b", 2⟩) (.letOne ⟨"u", 6⟩ (.fail 3) (.imm (.id ⟨"u", 6⟩)))
              (.comp (.imm .unit)))
            (.comp (.unbox (.id ⟨"z", 5⟩)))), none⟩,
        ⟨⟨"w", 7⟩, .boxNew (.id ⟨"a", 1⟩), none⟩]
      (.seq (.boxSet (.id ⟨"w", 7⟩) (.id ⟨"x", 3⟩)) (.comp (.unbox (.id ⟨"w", 7⟩))))
    exported := true
    span := none }]
  body := .letOne ⟨"v", 8⟩ (.call ⟨"f", 0⟩ [.int 1, .int 2]) (.imm (.id ⟨"v", 8⟩))

theorem lower_locals_thicket : thicket.check = .ok () ∧ ∃ m, thicket.lower.1 = .ok m ∧
    (m.functions.map fun d => (d.arity, d.locals, (Code.paths d.code).length)) =
      [(2, 5, 3), (0, 1, 1)] ∧
    List.Forall₂ (fun (f : List Ident × Expr) d => SoundLocals f.1 f.2 d) (bodiesOf thicket)
      m.functions := by
  have hcheck : thicket.check = .ok () := rfl
  obtain ⟨m, hm, hcounts⟩ : ∃ m, thicket.lower.1 = .ok m ∧
      (m.functions.map fun d => (d.arity, d.locals, (Code.paths d.code).length)) =
        [(2, 5, 3), (0, 1, 1)] := ⟨_, rfl, rfl⟩
  exact ⟨hcheck, m, hm, hcounts, lower_locals hcheck hm⟩

end Lowering

end AnfWasm
