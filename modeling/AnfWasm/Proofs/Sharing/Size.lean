import AnfWasm.Proofs.Lowering.Locals
import AnfWasm.Proofs.Lowering.Validity
import AnfWasm.Proofs.Sharing.Interface
import AnfWasm.Proofs.Sharing.Repeats
import AnfWasm.Proofs.Wasm.Offsets

/-!
# Sharing makes modules smaller

An expression and what sharing makes of it are lowered side by side.  The locals of the second
lowering are a part of those of the first one, so no identifier gets a later local than the one that
it stands for had (`Shrinks`); numbers that are not larger take no more bytes, and a binding that
goes takes its instructions with it.  Every merged binding saves a byte at least
(`Program.length_encode_share`).
-/

namespace AnfWasm

open Sharing Wasm

/-! ### numbers -/

theorem Wasm.Leb128.length_unsigned_mono {a b : Nat} (h : a ≤ b) :
    (unsigned a).length ≤ (unsigned b).length := by
  induction b using Leb128.unsigned.induct generalizing a with
  | case1 b hb =>
    rw [unsigned, if_pos (Nat.lt_of_le_of_lt h hb), unsigned, if_pos hb]
    exact Nat.le_refl _
  | case2 b hb ih =>
    rw [unsigned, unsigned.eq_def b, if_neg hb]
    by_cases ha : a < 128
    · rw [if_pos ha]
      exact Nat.succ_le_succ (Nat.zero_le _)
    · rw [if_neg ha]
      exact Nat.succ_le_succ (ih (Nat.div_le_div_right h))

namespace Wasm.Binary

theorem length_size_mono {a b : Nat} (h : a ≤ b) : (size a).length ≤ (size b).length :=
  Leb128.length_unsigned_mono h

theorem length_sized_le {as bs : Bytes} {n : Nat} (h : as.length + n ≤ bs.length) :
    (sized as).length + n ≤ (sized bs).length := by
  have hsize := Leb128.length_unsigned_mono (show as.length ≤ bs.length by omega)
  rw [length_sized, length_sized]
  omega

theorem length_locals_mono {a b : Nat} (h : a ≤ b) : (locals a).length ≤ (locals b).length := by
  have hone : (size 0).length = 1 := by rw [Decoder.size_of_lt (by decide)]; rfl
  cases b with
  | zero => rw [Nat.le_zero.mp h]
  | succ b =>
    cases a with
    | zero =>
      show (size 0).length ≤ (size 1 ++ size (b + 1) ++ [wordType]).length
      simp only [List.length_append, List.length_singleton]
      omega
    | succ a =>
      have hsize := length_size_mono h
      show (size 1 ++ size (a + 1) ++ [wordType]).length ≤
        (size 1 ++ size (b + 1) ++ [wordType]).length
      simp only [List.length_append]
      omega

theorem instrs_append (a b : Code) : instrs (a ++ b) = instrs a ++ instrs b := by
  induction a with
  | nil => rfl
  | cons i a ih => rw [List.cons_append, instrs, instrs, ih, List.append_assoc]

end Wasm.Binary

namespace Lowering

/-- the number of bytes of code -/
def bytes (code : Code) : Nat := (Binary.instrs code).length

theorem bytes_append (a b : Code) : bytes (a ++ b) = bytes a + bytes b := by
  rw [bytes, Binary.instrs_append, List.length_append]
  rfl

theorem bytes_cons (i : Instr) (code : Code) :
    bytes (i :: code) = (Binary.instr i).length + bytes code := List.length_append

theorem bytes_ifElse (thenCode elseCode : Code) :
    bytes [.ifElse thenCode elseCode] = bytes thenCode + bytes elseCode + 4 := by
  simp only [bytes, Binary.instrs, Binary.instr, List.length_append, List.length_cons,
    List.length_nil]
  omega

theorem bytes_append_le {a a' b b' : Code} (ha : bytes a' ≤ bytes a) (hb : bytes b' ≤ bytes b) :
    bytes (a' ++ b') ≤ bytes (a ++ b) := by
  rw [bytes_append, bytes_append]
  exact Nat.add_le_add ha hb

/-! ### operands -/

/-- what stands for an identifier has no later local -/
def NoLater (F : Merges) (fr fr' : Frame) : Prop :=
  ∀ (x : Ident) (i : Nat), fr.slots.lookup x.stamp = some i →
    ∃ j ≤ i, fr'.slots.lookup (standIn F x).stamp = some j

def Field.rewrite (F : Merges) : Field → Field
  | .const n => .const n
  | .imm a => .imm (standInImm F a)

theorem map_rewrite_imm (F : Merges) (args : List Imm) :
    (args.map Field.imm).map (Field.rewrite F) = (args.map (standInImm F)).map .imm := by
  rw [List.map_map, List.map_map]
  rfl

theorem tupleFields_map (F : Merges) (args : List Imm) :
    tupleFields (args.map (standInImm F)) = (tupleFields args).map (Field.rewrite F) := by
  rw [tupleFields, tupleFields, List.map_cons, map_rewrite_imm, List.length_map]
  rfl

theorem adtFields_map (F : Merges) (typeTag variant : UInt32) (args : List Imm) :
    adtFields typeTag variant (args.map (standInImm F))
      = (adtFields typeTag variant args).map (Field.rewrite F) := by
  rw [adtFields, adtFields, List.map_cons, List.map_cons, List.map_cons, map_rewrite_imm,
    List.length_map]
  rfl

section
variable {F : Merges} {fr fr' : Frame} {code code' : Code} (hs : NoLater F fr fr')
include hs

theorem Pushes.bytes_le {a : Imm} (h : Pushes fr a code) (h' : Pushes fr' (standInImm F a) code') :
    bytes code' ≤ bytes code := by
  cases h with
  | const c =>
    cases h'
    exact Nat.le_refl _
  | @slot x i hi =>
    have h' : Pushes fr' (.id (standIn F x)) code' := h'
    obtain ⟨j, hle, hj⟩ := hs x i hi
    cases h' with
    | slot hj' =>
      obtain rfl := Option.some.inj (hj.symm.trans hj')
      have := Binary.length_size_mono hle
      simp only [bytes_cons, Binary.instr, List.length_cons]
      omega

theorem PushesAll.bytes_le {args : List Imm} (h : PushesAll fr args code)
    (h' : PushesAll fr' (args.map (standInImm F)) code') : bytes code' ≤ bytes code := by
  induction h generalizing code' with
  | nil =>
    cases h'
    exact Nat.le_refl _
  | cons ha _ ih =>
    cases h' with
    | cons ha' hrest => exact bytes_append_le (ha.bytes_le hs ha') (ih hrest)

theorem Stores.bytes_le {index : Nat} {fields : List Field} (h : Stores fr index fields code)
    (h' : Stores fr' index (fields.map (Field.rewrite F)) code') : bytes code' ≤ bytes code := by
  induction h generalizing code' with
  | nil =>
    cases h'
    exact Nat.le_refl _
  | @cons index f fs value rest hf _ ih =>
    cases h' with
    | @cons _ _ _ value' rest' hf' hrest =>
      have hrest := ih hrest
      have hvalue : bytes value' ≤ bytes value := by
        cases hf with
        | const n =>
          cases hf'
          exact Nat.le_refl _
        | imm ha =>
          cases hf' with
          | imm ha' => exact ha.bytes_le hs ha'
      simp only [List.cons_append, bytes_cons, bytes_append]
      omega

theorem Allocates.bytes_le {fields : List Field} (h : Allocates fr fields code)
    (h' : Allocates fr' (fields.map (Field.rewrite F)) code') : bytes code' ≤ bytes code := by
  cases h with
  | mk hstores =>
    cases h' with
    | mk hstores' =>
      have := hstores.bytes_le hs hstores'
      simp only [List.cons_append, bytes_cons, bytes_append, List.length_map]
      omega

/-- a computation without arms -/
theorem CompCode.bytes_le {cs : Callees} {c : Comp} {fr₁ fr₁' : Frame}
    (hc : c.arms = []) (h : CompCode cs c fr code fr₁)
    (h' : CompCode cs (c.mapOperands (standInImm F)) fr' code' fr₁') :
    bytes code' ≤ bytes code := by
  cases h with
  | branch => exact absurd hc (List.cons_ne_nil _ _)
  | imm ha =>
    cases h' with
    | imm ha' => exact ha.bytes_le hs ha'
  | not ha =>
    cases h' with
    | not ha' => exact bytes_append_le (ha.bytes_le hs ha') (Nat.le_refl _)
  | neg ha =>
    cases h' with
    | neg ha' =>
      have := ha.bytes_le hs ha'
      simp only [List.cons_append, bytes_cons, bytes_append]
      omega
  | prim2 ha hb =>
    cases h' with
    | prim2 ha' hb' =>
      refine bytes_append_le (bytes_append_le ?_ ?_) (Nat.le_refl _)
      · exact ha.bytes_le hs ha'
      · exact hb.bytes_le hs hb'
  | adt ha =>
    cases h' with
    | adt ha' =>
      rw [adtFields_map] at ha'
      exact ha.bytes_le hs ha'
  | tuple ha =>
    cases h' with
    | tuple ha' =>
      rw [tupleFields_map] at ha'
      exact ha.bytes_le hs ha'
  | tupleGet ha =>
    cases h' with
    | tupleGet ha' => exact bytes_append_le (ha.bytes_le hs ha') (Nat.le_refl _)
  | boxNew ha =>
    cases h' with
    | boxNew ha' => exact ha.bytes_le hs ha'
  | unbox ha =>
    cases h' with
    | unbox ha' => exact bytes_append_le (ha.bytes_le hs ha') (Nat.le_refl _)
  | boxSet ha hb =>
    cases h' with
    | boxSet ha' hb' =>
      refine bytes_append_le (bytes_append_le ?_ ?_) (Nat.le_refl _)
      · exact ha.bytes_le hs ha'
      · exact hb.bytes_le hs hb'
  | call hcallee ha =>
    cases h' with
    | call hcallee' ha' =>
      obtain rfl := Option.some.inj (hcallee.found.symm.trans hcallee'.found)
      exact bytes_append_le (ha.bytes_le hs ha') (Nat.le_refl _)
  | callForeign hcallee ha =>
    cases h' with
    | callForeign hcallee' ha' =>
      obtain rfl := Option.some.inj (hcallee.found.symm.trans hcallee'.found)
      exact bytes_append_le (ha.bytes_le hs ha') (Nat.le_refl _)
  | fail =>
    cases h'
    exact Nat.le_refl _

end

/-! ### frames -/

/-- The frame `fr'` of the second lowering has no later locals than `fr`, and a local for each
construction of the table.  The stamps of both are among `K`. -/
structure Shrinks (F : Merges) (T : Available) (K : List UInt32) (fr fr' : Frame) : Prop where
  count : fr'.count ≤ fr.count
  slots : NoLater F fr fr'
  table : ∀ k a, (k, a) ∈ T → fr'.Knows a.stamp
  bounded : fr'.Bounded
  known : ∀ n, fr.Knows n → n ∈ K
  known' : ∀ n, fr'.Knows n → n ∈ K

theorem lookup_bind_self (fr : Frame) {x : Ident} {n : UInt32} (h : n = x.stamp) :
    (fr.bind x).slots.lookup n = some fr.count := by
  show ((x.stamp, fr.count) :: fr.slots).lookup n = _
  rw [List.lookup_cons, beq_iff_eq.mpr h]

theorem lookup_bind_of_ne (fr : Frame) {x : Ident} {n : UInt32} (h : n ≠ x.stamp) :
    (fr.bind x).slots.lookup n = fr.slots.lookup n :=
  (allots_bind fr x).slots n fun hmem => h (List.mem_singleton.mp hmem)

namespace Shrinks
variable {F : Merges} {T T' : Available} {K K' : List UInt32} {fr fr' fr₁ fr₁' : Frame} {id : Ident}

theorem mono (h : Shrinks F T K fr fr') (hT : ∀ p ∈ T', p ∈ T) (hK : ∀ n ∈ K, n ∈ K') :
    Shrinks F T' K' fr fr' where
  count := h.count
  slots := h.slots
  table k a ha := h.table k a (hT _ ha)
  bounded := h.bounded
  known n hn := hK n (h.known n hn)
  known' n hn := hK n (h.known' n hn)

/-- a binder that is kept gets a local in both frames -/
theorem keep (h : Shrinks F T K fr fr') (hid : replacement? F id.stamp = none) (hnew : id.stamp ∉ K)
    (kind : LetKind) (c : Comp) :
    Shrinks F (extend kind T id c) (id.stamp :: K) (fr.bind id) (fr'.bind id) where
  count := by
    rw [Frame.count_bind, Frame.count_bind]
    exact Nat.succ_le_succ h.count
  slots x i hi := by
    by_cases hx : x.stamp = id.stamp
    · rw [lookup_bind_self fr hx] at hi
      refine ⟨fr'.count, Option.some.inj hi ▸ h.count, ?_⟩
      rw [standIn_of_none hid hx.symm, lookup_bind_self fr' hx]
    · rw [lookup_bind_of_ne fr hx] at hi
      obtain ⟨j, hle, hj⟩ := h.slots x i hi
      have hne : (standIn F x).stamp ≠ id.stamp := fun he => hnew (he ▸ h.known' _ ⟨j, hj⟩)
      exact ⟨j, hle, by rw [lookup_bind_of_ne fr' hne, hj]⟩
  table k a ha := by
    rw [Frame.knows_bind]
    rcases extend_cases kind T id c with he | ⟨k', -, -, -, -, he⟩
    · exact .inr (h.table k a (he ▸ ha))
    · rw [he] at ha
      rcases List.mem_cons.mp ha with ha | ha
      · exact .inl (congrArg Ident.stamp (Prod.mk.inj ha).2)
      · exact .inr (h.table k a ha)
  bounded := h.bounded.bind id
  known n hn := List.mem_cons.mpr ((Frame.knows_bind.mp hn).imp_right (h.known n))
  known' n hn := List.mem_cons.mpr ((Frame.knows_bind.mp hn).imp_right (h.known' n))

/-- a binder that goes gets a local in the first frame only -/
theorem drop (h : Shrinks F T K fr fr') {k : Key} {a : Ident}
    (hid : replacement? F id.stamp = some a) (ha : (k, a) ∈ T) :
    Shrinks F T (id.stamp :: K) (fr.bind id) fr' where
  count := Nat.le_trans h.count (allots_bind fr id).count
  slots x i hi := by
    by_cases hx : x.stamp = id.stamp
    · -- all locals of the second frame are before the new one of the first
      rw [lookup_bind_self fr hx] at hi
      obtain ⟨j, hj⟩ := h.table k a ha
      have hlt := h.bounded _ _ hj
      have hle := h.count
      have hi := Option.some.inj hi
      exact ⟨j, by omega, by rw [standIn_of_some hid hx.symm, hj]⟩
    · rw [lookup_bind_of_ne fr hx] at hi
      exact h.slots x i hi
  table := h.table
  bounded := h.bounded
  known n hn := List.mem_cons.mpr ((Frame.knows_bind.mp hn).imp_right (h.known n))
  known' n hn := List.mem_cons_of_mem _ (h.known' n hn)

/-- only locals matter -/
theorem congr (h : Shrinks F T K fr fr') (hfr : fr₁.slots = fr.slots ∧ fr₁.locals = fr.locals)
    (hfr' : fr₁'.slots = fr'.slots ∧ fr₁'.locals = fr'.locals) : Shrinks F T K fr₁ fr₁' := by
  obtain ⟨slots, locals, failures⟩ := fr
  obtain ⟨slots', locals', failures'⟩ := fr'
  obtain ⟨rfl, rfl⟩ := hfr
  obtain ⟨rfl, rfl⟩ := hfr'
  exact ⟨h.count, h.slots, h.table, h.bounded, h.known, h.known'⟩

end Shrinks

/-! ### expressions -/

/-- how many of the binders go -/
def gone (F : Merges) (xs : List Ident) : Nat := xs.countP fun x => (replacement? F x.stamp).isSome

theorem gone_append (F : Merges) (xs ys : List Ident) :
    gone F (xs ++ ys) = gone F xs + gone F ys := List.countP_append

section
variable {xs ys K : List UInt32} {a n : UInt32}

theorem mem_append_swap (h : n ∈ ys ++ (xs ++ K)) : n ∈ xs ++ ys ++ K := by
  simp only [List.mem_append] at h ⊢
  tauto

theorem mem_cons_swap (h : n ∈ ys ++ a :: (xs ++ K)) : n ∈ xs ++ a :: ys ++ K := by
  simp only [List.mem_append, List.mem_cons] at h ⊢
  tauto

end

theorem mem_extendAll {F : Merges} {kind : LetKind} {bs : List Binding} {T : Available}
    {entry : Key × Ident} (h : entry ∈ T) : entry ∈ extendAll F kind T bs := by
  induction bs generalizing T with
  | nil => exact h
  | cons b bs ih =>
    obtain ⟨id, comp, span⟩ := b
    refine ih ?_
    rcases extend_cases kind T id (comp.rewrite F) with he | ⟨k, -, -, -, -, he⟩
    · rwa [he]
    · rw [he]
      exact List.mem_cons_of_mem _ h

section
variable {cs : Callees} {fr fr' : Frame} {code : Code}

theorem CompCode.same {c : Comp} (hc : c.arms = [])
    (h : CompCode cs c fr code fr') : fr'.slots = fr.slots ∧ fr'.locals = fr.locals := by
  cases h with
  | branch => exact absurd hc (List.cons_ne_nil _ _)
  | _ => exact ⟨rfl, rfl⟩

theorem ExprCode.letOf {kind : LetKind} {bs : List Binding} {body : Expr}
    (h : ExprCode cs (letOf kind bs body) fr code fr') :
    ∃ fr₁ first rest, BindingsCode cs bs fr first fr₁ ∧ ExprCode cs body fr₁ rest fr' ∧
      code = first ++ rest := by
  cases bs with
  | nil => exact ⟨fr, [], code, .nil, h, rfl⟩
  | cons b bs =>
    cases h with
    | letIn h1 h2 => exact ⟨_, _, _, h1, h2, rfl⟩

end

theorem CompCode.shrinks_plain {c : Comp} (hc : c.arms = []) {cs : Callees}
    {F : Merges} {T : Available} {K : List UInt32} {fr fr' fr₁ fr₁' : Frame} {code code' : Code}
    (hs : Shrinks F T K fr fr') (h : CompCode cs c fr code fr₁)
    (h' : CompCode cs (c.rewrite F) fr' code' fr₁') :
    Shrinks F T (stamps c.binders ++ K) fr₁ fr₁' ∧
      bytes code' + gone F c.binders ≤ bytes code := by
  have hc' : (c.rewrite F).arms = [] := by rw [rewrite_plain hc, Comp.arms_mapOperands, hc]
  rw [Comp.binders_of_arms hc]
  refine ⟨hs.congr (CompCode.same hc h) (CompCode.same hc' h'), ?_⟩
  rw [rewrite_plain hc] at h'
  exact CompCode.bytes_le hs.slots hc h h'

mutual

/-- one byte less at least for each binder that goes -/
theorem CompCode.shrinks (c : Comp) {cs : Callees} {F : Merges} {T : Available} {K : List UInt32}
    {fr fr' fr₁ fr₁' : Frame} {code code' : Code} (hs : Shrinks F T K fr fr')
    (hj : c.Justified F T) (hf : Fresh K c.binders) (h : CompCode cs c fr code fr₁)
    (h' : CompCode cs (c.rewrite F) fr' code' fr₁') :
    Shrinks F T (stamps c.binders ++ K) fr₁ fr₁' ∧
      bytes code' + gone F c.binders ≤ bytes code := by
  match c with
  | .branch cond thenArm elseArm =>
    obtain ⟨hf1, hf2⟩ := Fresh.append hf
    rw [Comp.rewrite] at h'
    cases h with
    | branch ha h1 h2 =>
      cases h' with
      | branch ha' h1' h2' =>
        have hcond := ha.bytes_le hs.slots ha'
        obtain ⟨hs1, hle1⟩ := ExprCode.shrinks thenArm hs hj.1 hf1 h1 h1'
        obtain ⟨hs2, hle2⟩ := ExprCode.shrinks elseArm hs1 hj.2 hf2 h2 h2'
        rw [Comp.binders, gone_append, stamps_append]
        refine ⟨hs2.mono (fun _ h => h) fun n => mem_append_swap, ?_⟩
        rw [bytes_append, bytes_append, bytes_ifElse, bytes_ifElse]
        omega
  | .imm _ | .prim1 _ _ | .prim2 _ _ _ | .adt _ _ _ | .tuple _ | .tupleGet _ _ | .boxNew _
  | .unbox _ | .boxSet _ _ | .call _ _ | .callForeign _ _ | .fail _ =>
    exact CompCode.shrinks_plain rfl hs h h'

theorem BindingsCode.shrinks (bs : List Binding) {cs : Callees} {F : Merges} {T : Available}
    {K : List UInt32} {kind : LetKind} {fr fr' fr₁ fr₁' : Frame} {code code' : Code}
    (hs : Shrinks F T K fr fr') (hj : Binding.Justified F kind T bs)
    (hf : Fresh K (Binding.binders bs)) (h : BindingsCode cs bs fr code fr₁)
    (h' : BindingsCode cs (Binding.keptOf F bs) fr' code' fr₁') :
    Shrinks F (extendAll F kind T bs) (stamps (Binding.binders bs) ++ K) fr₁ fr₁' ∧
      bytes code' + gone F (Binding.binders bs) ≤ bytes code := by
  match bs with
  | [] =>
    cases h
    cases h'
    exact ⟨hs, Nat.le_refl _⟩
  | ⟨id, comp, span⟩ :: bs =>
    obtain ⟨hj1, hj2, hj3⟩ := hj
    obtain ⟨hf1, hf2⟩ := Fresh.append hf
    obtain ⟨hid, hf3⟩ := hf2.cons
    rw [Binding.binders, gone_append, stamps_append, stamps_cons]
    cases h with
    | cons h1 h2 =>
      cases hr : replacement? F id.stamp with
      | none =>
        rw [Binding.keptOf_cons_of_none hr] at h'
        cases h' with
        | cons h1' h2' =>
          obtain ⟨hs1, hle1⟩ := CompCode.shrinks comp hs hj1 hf1 h1 h1'
          have hset := Binary.length_size_mono hs1.count
          obtain ⟨hs2, hle2⟩ :=
            BindingsCode.shrinks bs (hs1.keep hr hid kind (comp.rewrite F)) hj3 hf3 h2 h2'
          have hgone : gone F (id :: Binding.binders bs) = gone F (Binding.binders bs) :=
            List.countP_cons_of_neg (by simp [hr])
          refine ⟨hs2.mono (fun _ h => h) fun n => mem_cons_swap, ?_⟩
          simp only [bytes_append, bytes_cons, Binary.instr, List.length_cons, hgone]
          omega
      | some a =>
        rw [Binding.keptOf_cons_of_some hr] at h'
        have havailable := hj2.symm.trans hr
        obtain ⟨k, hk, ha⟩ := mem_of_available? havailable
        have harms := (Comp.isPlain_rewrite.mp (Comp.isPlain_of_key? hk)).arms
        rw [extend_of_available havailable] at hj3
        rw [Comp.binders_of_arms harms] at hf3 ⊢
        have hs1 := (hs.congr (CompCode.same harms h1) ⟨rfl, rfl⟩).drop hr ha
        obtain ⟨hs2, hle2⟩ := BindingsCode.shrinks bs hs1 hj3 hf3 h2 h'
        have hgone : gone F (id :: Binding.binders bs) = gone F (Binding.binders bs) + 1 :=
          List.countP_cons_of_pos (by simp [hr])
        rw [extendAll, extend_of_available havailable]
        have hK : ∀ n ∈ stamps (Binding.binders bs) ++ id.stamp :: ([] ++ K),
            n ∈ [] ++ id.stamp :: stamps (Binding.binders bs) ++ K := fun n => mem_cons_swap
        refine ⟨hs2.mono (fun _ h => h) hK, ?_⟩
        have hnone : gone F [] = 0 := rfl
        -- the instruction that sets the local pays for the binder
        simp only [bytes_append, bytes_cons, Binary.instr, List.length_cons, hgone]
        omega

theorem ExprCode.shrinks (e : Expr) {cs : Callees} {F : Merges} {T : Available} {K : List UInt32}
    {fr fr' fr₁ fr₁' : Frame} {code code' : Code} (hs : Shrinks F T K fr fr')
    (hj : e.Justified F T) (hf : Fresh K e.binders) (h : ExprCode cs e fr code fr₁)
    (h' : ExprCode cs (e.rewrite F) fr' code' fr₁') :
    Shrinks F T (stamps e.binders ++ K) fr₁ fr₁' ∧
      bytes code' + gone F e.binders ≤ bytes code := by
  match e with
  | .letIn kind bs body =>
    obtain ⟨hf1, hf2⟩ := Fresh.append hf
    rw [Expr.rewrite] at h'
    obtain ⟨fr₂', first', rest', h1', h2', rfl⟩ := h'.letOf
    cases h with
    | letIn h1 h2 =>
      obtain ⟨hs1, hle1⟩ := BindingsCode.shrinks bs hs hj.1 hf1 h1 h1'
      obtain ⟨hs2, hle2⟩ := ExprCode.shrinks body hs1 hj.2 hf2 h2 h2'
      rw [Expr.binders, gone_append, stamps_append]
      refine ⟨hs2.mono (fun _ h => mem_extendAll h) fun n => mem_append_swap, ?_⟩
      rw [bytes_append, bytes_append]
      omega
  | .seq comp rest =>
    obtain ⟨hf1, hf2⟩ := Fresh.append hf
    rw [Expr.rewrite] at h'
    cases h with
    | seq h1 h2 =>
      cases h' with
      | seq h1' h2' =>
        obtain ⟨hs1, hle1⟩ := CompCode.shrinks comp hs hj.1 hf1 h1 h1'
        obtain ⟨hs2, hle2⟩ := ExprCode.shrinks rest hs1 hj.2 hf2 h2 h2'
        rw [Expr.binders, gone_append, stamps_append]
        refine ⟨hs2.mono (fun _ h => h) fun n => mem_append_swap, ?_⟩
        rw [bytes_append, bytes_append, bytes_cons, bytes_cons]
        omega
  | .comp comp =>
    rw [Expr.rewrite] at h'
    cases h with
    | comp h1 =>
      cases h' with
      | comp h1' => exact CompCode.shrinks comp hs hj hf h1 h1'

end

/-! ### functions -/

section
variable {cs : Callees} {F : Merges}

theorem shrinks_ofParams {params : List Ident}
    (hparams : ∀ n ∈ stamps params, replacement? F n = none) :
    Shrinks F [] (stamps params) (Frame.ofParams params) (Frame.ofParams params) := by
  have hknown : ∀ n, (Frame.ofParams params).Knows n → n ∈ stamps params :=
    fun n ⟨i, hi⟩ => List.mem_of_getElem? ((lists_ofParams params).slot n i hi)
  refine ⟨Nat.le_refl _, fun x i hi => ?_, fun _ _ h => absurd h List.not_mem_nil,
    bounded_ofParams params, hknown, hknown⟩
  rw [standIn_of_none (hparams _ (hknown _ ⟨i, hi⟩)) rfl]
  exact ⟨i, Nat.le_refl _, hi⟩

theorem length_body (d : FuncDef) :
    (Binary.body d).length = (Binary.locals d.locals).length + bytes d.code + 1 := by
  rw [Binary.body, List.length_append, List.length_append]
  rfl

theorem BodyCode.length_body_le {params : List Ident} {body : Expr} {d d' : FuncDef}
    (hparams : ∀ n ∈ stamps params, replacement? F n = none) (hj : body.Justified F [])
    (hf : Fresh (stamps params) body.binders) (h : BodyCode cs params body d)
    (h' : BodyCode cs params (body.rewrite F) d') :
    (Binary.body d').length + gone F body.binders ≤ (Binary.body d).length := by
  obtain ⟨fr, hcode, hcount⟩ := h.code
  obtain ⟨fr', hcode', hcount'⟩ := h'.code
  obtain ⟨hs, hle⟩ := ExprCode.shrinks body (shrinks_ofParams hparams) hj hf hcode hcode'
  have hfewer : d'.locals ≤ d.locals := by
    have := hs.count
    omega
  have hlocals := Binary.length_locals_mono hfewer
  rw [length_body, length_body]
  omega

theorem length_bodies_le {fs : List Func} {ds ds' : List FuncDef}
    (hj : ∀ f ∈ fs, f.Justified F) (hf : ∀ f ∈ fs, Fresh (stamps f.params) f.body.binders)
    (h : List.Forall₂ (fun f d => BodyCode cs f.params f.body d) fs ds)
    (h' : List.Forall₂ (fun f d => BodyCode cs f.params f.body d) (fs.map (Func.rewrite F)) ds') :
    (Binary.bodies ds').length + gone F (fs.flatMap fun f => f.body.binders)
      ≤ (Binary.bodies ds).length := by
  induction h generalizing ds' with
  | nil =>
    cases h'
    exact Nat.le_refl _
  | cons hd _ ih =>
    cases h' with
    | cons hd' hrest =>
      obtain ⟨hj1, hj2⟩ := List.forall_mem_cons.mp hj
      obtain ⟨hf1, hf2⟩ := List.forall_mem_cons.mp hf
      have hfirst := Binary.length_sized_le (hd.length_body_le hj1.1 hj1.2 hf1 hd')
      have hrest := ih hj2 hf2 hrest
      rw [Binary.bodies_cons, Binary.bodies_cons, List.length_append, List.length_append,
        List.flatMap_cons, gone_append]
      omega

end

/-! ### modules -/

/-- The functions of a program and of what is made of it are lowered with the same callees. -/
theorem lower_rewrite {p : Program} {F : Merges} {m m' : Module} (hm : p.lower.1 = .ok m)
    (hm' : (p.rewrite F).lower.1 = .ok m') :
    ∃ cs ds entry ds' entry', m.functions = ds ++ [entry] ∧ m'.functions = ds' ++ [entry'] ∧
      List.Forall₂ (fun f d => BodyCode cs f.params f.body d) p.functions ds ∧
      List.Forall₂ (fun f d => BodyCode cs f.params f.body d)
        (p.functions.map (Func.rewrite F)) ds' ∧
      BodyCode cs [] p.body entry ∧ BodyCode cs [] (p.body.rewrite F) entry' := by
  obtain ⟨b, hl⟩ := lowerProgram_of_lower hm
  obtain ⟨b', hl'⟩ := lowerProgram_of_lower hm'
  obtain ⟨cs₁, imports, b₁, cs, b₂, ds, b₃, entry, b₄, h1, h2, h3, h4, rfl, -⟩ :=
    lowerProgram_steps hl
  obtain ⟨cs₁', imports', b₁', cs', b₂', ds', b₃', entry', b₄', h1', h2', h3', h4', rfl, -⟩ :=
    lowerProgram_steps hl'
  obtain ⟨he, rfl⟩ := EStateM.Result.ok.inj (h1.symm.trans h1')
  obtain ⟨rfl, rfl⟩ := Prod.mk.inj he
  have hdeclared : declareFuncs cs₁ p.imports.length p.functions b₁ = .ok cs' b₂' := by
    rw [← h2', ← declareFuncs_rewrite]
    rfl
  obtain ⟨rfl, rfl⟩ := EStateM.Result.ok.inj (h2.symm.trans hdeclared)
  exact ⟨cs, ds, entry, ds', entry', rfl, rfl, lowerFuncs_ok h3, lowerFuncs_ok h3',
    (lowerEntry_ok h4).1, (lowerEntry_ok h4').1⟩

end Lowering

namespace Wasm

theorem Binary.header_outline (m : Module) : header m.outline = header m := by
  have hfunctions : functionSection m.outline = functionSection m := by
    rw [functionSection, functionSection, Module.outline, List.map_map]
    rfl
  have hexports : exportSection m.outline = exportSection m := by
    have h : m.outline.exports = _ := Module.exportsFrom_header m.imports.length m.functions
    rw [exportSection, exportSection, h, List.map_map]
    rfl
  rw [header, header, hfunctions, hexports]
  rfl

/-- modules that differ in their code only -/
theorem length_encode_le {m m' : Module} {n : Nat} (h : m'.outline = m.outline)
    (hbodies : (Binary.bodies m'.functions).length + n ≤ (Binary.bodies m.functions).length)
    (url : Option String) : (m'.encode url).bytes.length + n ≤ (m.encode url).bytes.length := by
  have hheader : Binary.header m' = Binary.header m := by
    rw [← Binary.header_outline m', h, Binary.header_outline]
  have hcount : m'.functions.length = m.functions.length := by
    have hfunctions := congrArg List.length (congrArg Module.functions h)
    rwa [Module.outline, Module.outline, List.length_map, List.length_map] at hfunctions
  have hpayload : (Binary.codePayload m').length + n ≤ (Binary.codePayload m).length := by
    rw [Binary.codePayload_eq, Binary.codePayload_eq, hcount, List.length_append,
      List.length_append]
    omega
  have hsize := Binary.length_size_mono (Nat.le_of_add_right_le hpayload)
  simp only [encode_bodies, beforeBodies, hheader, hcount, List.length_append, List.length_cons]
  omega

end Wasm

namespace Program

theorem merged_le_gone (p : Program) :
    p.share.merged ≤ Lowering.gone p.replacements p.letBinders := by
  have hall : ∀ x ∈ p.share.merges.map Prod.fst, (replacement? p.replacements x.stamp).isSome := by
    intro x hx
    rw [Option.isSome_iff_ne_none]
    intro hnone
    refine replacement?_eq_none_iff.mp hnone ?_
    rw [domain, replacements, List.map_reverse]
    exact List.mem_map_of_mem (List.mem_reverse.mpr hx)
  calc p.share.merged
      = (p.share.merges.map Prod.fst).length := (List.length_map _).symm
    _ = Lowering.gone p.replacements (p.share.merges.map Prod.fst) :=
      (List.countP_eq_length.mpr hall).symm
    _ ≤ Lowering.gone p.replacements p.letBinders := p.share_records.countP_le

/-- **Every binding that sharing merges makes the module shorter by a byte at least.** -/
theorem length_encode_share {p : Program} {m : Wasm.Module} (hp : p.check = .ok ())
    (hm : p.lower.1 = .ok m) : ∃ m', p.share.program.lower.1 = .ok m' ∧ ∀ url,
      (m'.encode url).bytes.length + p.share.merged ≤ (m.encode url).bytes.length := by
  have h := p.check_ok_iff.mp hp
  obtain ⟨m', hm'⟩ := (lower_share_ok_iff h).mpr ⟨m, hm⟩
  have houtline := outline_share h hm hm'
  obtain ⟨hrewrite, hj, hbody⟩ := share_eq h
  have hmerged := p.merged_le_gone
  refine ⟨m', hm', Wasm.length_encode_le houtline ?_⟩
  rw [hrewrite] at hm'
  obtain ⟨cs, ds, entry, ds', entry', hm, hm', hds, hds', hentry, hentry'⟩ :=
    Lowering.lower_rewrite hm hm'
  have hfresh : ∀ f ∈ p.functions, Fresh (stamps f.params) f.body.binders := fun f hf =>
    (h.fresh_func hf).append.2.mono fun n hn => List.mem_append_left _ hn
  have hfuncs := Lowering.length_bodies_le hj hfresh hds hds'
  have hfree : ∀ n ∈ stamps [], replacement? p.replacements n = none :=
    fun _ hn => absurd hn List.not_mem_nil
  have hlast := Wasm.Binary.length_sized_le
    (hentry.length_body_le hfree hbody h.fresh_body hentry')
  rw [hm, hm', Wasm.Binary.bodies_append, Wasm.Binary.bodies_append, List.length_append,
    List.length_append, Wasm.Binary.bodies_cons, Wasm.Binary.bodies_cons, List.length_append,
    List.length_append]
  rw [letBinders, Lowering.gone_append] at hmerged
  omega

theorem length_encode_share_cascade : cascade.check = .ok () ∧ cascade.share.merged = 2 ∧
    ∃ m m', cascade.lower.1 = .ok m ∧ cascade.share.program.lower.1 = .ok m' ∧
      (m'.encode none).bytes.length + 2 ≤ (m.encode none).bytes.length := by
  have h : cascade.check = .ok () := rfl
  obtain ⟨m, hm⟩ : ∃ m, cascade.lower.1 = .ok m := ⟨_, rfl⟩
  obtain ⟨m', hm', hle⟩ := length_encode_share h hm
  exact ⟨h, rfl, m, m', hm, hm', hle none⟩

end Program

end AnfWasm
