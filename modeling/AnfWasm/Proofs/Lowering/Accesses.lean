import AnfWasm.Proofs.Lowering.Parts
import AnfWasm.Proofs.Program.Traversal
import AnfWasm.Proofs.Sharing.Repeats
import AnfWasm.Proofs.Wasm.Ops
import Mathlib.Algebra.Group.Nat.Defs

/-!
# Accesses to memory

The loads and stores of a lowered module are those of the computations of the program, in the order
of the walk (`Lowers.accesses`): a construction stores its words one after the other, a cell is
accessed at offset zero, and a projection loads the word that its index says.

A memory of 32 bits has room for offsets below `2 ^ 32`.  Constructions of fewer than `2 ^ 30 - 4`
operands stay below that, and the index of a projection is any number below `2 ^ 32`, so offsets are
in range exactly if no projection asks for a word at or beyond `2 ^ 32` (`lower_accesses_lt`).
-/

namespace AnfWasm

/-! ### computations on the walk -/

theorem selective_comp : Selective Step.comp? where
  opened n h := by
    cases n with
    | comp c => exact absurd rfl (h c)
    | _ => rfl
  closed _ := rfl
  binder _ := rfl

/-- on the walk over a computation come the computation and those of its arms -/
theorem Comp.read_comp (c : Comp) :
    c.read Step.comp? = c :: c.arms.flatMap (Expr.read Step.comp?) := by
  have huses : c.named.filterMap (fun x => Step.comp? (.use x)) = [] :=
    List.filterMap_eq_nil_iff.mpr fun _ _ => rfl
  rw [selective_comp.read_comp, huses]
  rfl

theorem Func.read_comp (f : Func) :
    (f.walk everything).filterMap Step.comp? = f.body.read Step.comp? := by
  have hparams : (f.params.map Child.binder).flatMap (Child.read Step.comp?) = [] := by
    rw [List.flatMap_map]
    exact List.flatMap_eq_nil_iff.mpr fun x _ => selective_comp.read_binder x
  show ((Node.func f).walk everything).filterMap Step.comp? = _
  rw [selective_comp.read_node fun _ => Node.noConfusion, Node.children, List.flatMap_append,
    List.flatMap_cons, hparams, List.flatMap_singleton]
  rfl

theorem Program.comps_eq (p : Program) :
    p.comps = p.functions.flatMap (fun f => f.body.read Step.comp?) ++ p.body.read Step.comp? := by
  have himports : (p.imports.map Child.imported).flatMap (Child.read Step.comp?) = [] := by
    rw [List.flatMap_map]
    exact List.flatMap_eq_nil_iff.mpr fun i _ => selective_comp.read_binder i.id
  show ((Node.program p).walk everything).filterMap Step.comp? = _
  rw [selective_comp.read_node fun _ => Node.noConfusion, Node.children, List.flatMap_append,
    List.flatMap_append, himports, List.flatMap_singleton, List.flatMap_map]
  exact congrArg (· ++ _) (List.flatMap_congr fun f _ => f.read_comp)

namespace Lowering

open Wasm

/-! ### offsets -/

/-- the offsets of the loads and stores of code, in order -/
def accesses (code : Code) : List Nat := (Op.ofCode code).filterMap Op.offset?

theorem length_accesses_le (code : Code) : (accesses code).length ≤ (Op.ofCode code).length :=
  List.length_filterMap_le _ _

theorem accesses_append (a b : Code) : accesses (a ++ b) = accesses a ++ accesses b := by
  rw [accesses, Op.ofCode_append, List.filterMap_append]
  rfl

theorem accesses_cons (i : Instr) (code : Code) :
    accesses (i :: code) = accesses [i] ++ accesses code := accesses_append [i] code

theorem accesses_ifElse (thenCode elseCode : Code) :
    accesses [.ifElse thenCode elseCode] = accesses thenCode ++ accesses elseCode := by
  rw [accesses, Op.ofCode_singleton, Op.ofInstr_ifElse, List.filterMap_append]
  rw [List.filterMap_append, List.filterMap_cons_none rfl, List.filterMap_cons_none rfl]
  exact List.append_nil _

/-- the offsets of words from an index on -/
def wordsFrom (index count : Nat) : List Nat := (List.range' index count).map (wordSize * ·)

/-- The offsets that a computation itself accesses, without its arms. -/
def offsets : Comp → List Nat
  | .adt typeTag variant args => wordsFrom 0 (adtFields typeTag variant args).length
  | .tuple args => wordsFrom 0 (tupleFields args).length
  | .tupleGet index _ => [wordSize * (index.toNat + 1)]
  | .boxNew _ | .unbox _ | .boxSet _ _ => [0]
  | _ => []

section
variable {cs : Callees} {fr fr' : Frame} {code : Code}

theorem Pushes.accesses {a : Imm} (h : Pushes fr a code) : accesses code = [] := by
  cases h <;> rfl

theorem PushesAll.accesses {args : List Imm} (h : PushesAll fr args code) :
    accesses code = [] := by
  induction h with
  | nil => rfl
  | cons ha _ ih => rw [accesses_append, ha.accesses, ih, List.append_nil]

theorem Stores.accesses {index : Nat} {fields : List Field} (h : Stores fr index fields code) :
    accesses code = wordsFrom index fields.length := by
  induction h with
  | nil => rfl
  | @cons index f fs value rest hf _ ih =>
    have hvalue : Lowering.accesses value = [] := by
      cases hf with
      | const n => rfl
      | imm ha => exact ha.accesses
    rw [List.cons_append, accesses_cons, accesses_append, hvalue, accesses_cons (.store _), ih]
    rfl

theorem Allocates.accesses {fields : List Field} (h : Allocates fr fields code) :
    accesses code = wordsFrom 0 fields.length := by
  cases h with
  | mk hstores =>
    rw [List.cons_append, accesses_cons, accesses_append, hstores.accesses]
    exact List.append_nil _

end

mutual

/-- code accesses what the computations on the walk access, in their order -/
theorem CompCode.accesses {cs : Callees} {c : Comp} {fr fr' : Frame} {code : Code}
    (h : CompCode cs c fr code fr') :
    accesses code = (c.read Step.comp?).flatMap offsets := by
  rw [Comp.read_comp, List.flatMap_cons]
  match h with
  | .branch ha h1 h2 =>
    rw [accesses_append, ha.accesses, accesses_ifElse, h1.accesses, h2.accesses,
      Comp.flatMap_arms, List.flatMap_append]
    rfl
  | .imm ha => rw [ha.accesses]; rfl
  | .not ha | .tupleGet ha | .unbox ha =>
    rw [accesses_append, ha.accesses]
    rfl
  | .neg ha =>
    rw [List.cons_append, accesses_cons, accesses_append, ha.accesses]
    rfl
  | .prim2 ha hb | .boxSet ha hb =>
    rw [accesses_append, accesses_append, ha.accesses, hb.accesses]
    rfl
  | .adt ha | .tuple ha | .boxNew ha =>
    rw [ha.accesses]
    exact (List.append_nil _).symm
  | .call _ ha | .callForeign _ ha =>
    rw [accesses_append, ha.accesses]
    rfl
  | .fail => rfl

theorem BindingsCode.accesses {cs : Callees} {bs : List Binding} {fr fr' : Frame} {code : Code}
    (h : BindingsCode cs bs fr code fr') :
    accesses code = (Binding.reads Step.comp? bs).flatMap offsets := by
  match h with
  | .nil => rfl
  | .cons h1 h2 =>
    rw [selective_comp.reads_cons, List.flatMap_append, accesses_append, accesses_cons, h1.accesses]
    rw [h2.accesses]
    rfl

theorem ExprCode.accesses {cs : Callees} {e : Expr} {fr fr' : Frame} {code : Code}
    (h : ExprCode cs e fr code fr') :
    accesses code = (e.read Step.comp?).flatMap offsets := by
  match h with
  | .letIn h1 h2 =>
    rw [selective_comp.read_letIn, List.flatMap_append, accesses_append, h1.accesses, h2.accesses]
  | .seq h1 h2 =>
    rw [selective_comp.read_seq, List.flatMap_append, accesses_append, accesses_cons, h1.accesses]
    rw [h2.accesses]
    rfl
  | .comp h1 => rw [selective_comp.read_tail, h1.accesses]

end

/-! ### modules -/

theorem BodyCode.accesses {cs : Callees} {params : List Ident} {body : Expr} {d : FuncDef}
    (h : BodyCode cs params body d) :
    accesses d.code = (body.read Step.comp?).flatMap offsets := by
  obtain ⟨fr, hcode, -⟩ := h.code
  exact hcode.accesses

theorem accesses_functions {cs : Callees} {fs : List Func} {ds : List FuncDef}
    (h : List.Forall₂ (fun f d => BodyCode cs f.params f.body d) fs ds) :
    ds.flatMap (fun d => accesses d.code)
      = fs.flatMap fun f => (f.body.read Step.comp?).flatMap offsets := by
  induction h with
  | nil => rfl
  | cons hd _ ih => rw [List.flatMap_cons, List.flatMap_cons, hd.accesses, ih]

/-- the accesses of a lowered module are those of the computations of the program -/
theorem Lowers.accesses {p : Program} {m : Module} {cs : Callees} (h : Lowers p m cs) :
    m.functions.flatMap (fun d => accesses d.code) = p.comps.flatMap offsets := by
  obtain ⟨ds, entry, hm, hds, hentry⟩ := h.functions
  rw [hm, List.flatMap_append, List.flatMap_singleton, accesses_functions hds, hentry.accesses]
  rw [p.comps_eq, List.flatMap_append, List.flatMap_assoc]

theorem lt_of_mem_wordsFrom {n count : Nat} (hn : n ∈ wordsFrom 0 count) :
    n < wordSize * count := by
  obtain ⟨i, hi, rfl⟩ := List.mem_map.mp hn
  have := List.mem_range'_1.mp hi
  unfold wordSize
  omega

theorem length_wordsFrom (index count : Nat) : (wordsFrom index count).length = count := by
  rw [wordsFrom, List.length_map, List.length_range']

/-- the index of a projection is a number of 32 bits, and other words are accessed one by one -/
theorem offsets_le {c : Comp} {n : Nat} (hn : n ∈ offsets c) :
    n ≤ wordSize * (2 ^ 32 + (offsets c).length) := by
  cases c with
  | adt typeTag variant args | tuple args =>
    have := lt_of_mem_wordsFrom hn
    rw [offsets, length_wordsFrom]
    unfold wordSize at this ⊢
    omega
  | tupleGet index a =>
    have hindex := index.toNat_lt
    rw [List.mem_singleton.mp hn]
    unfold wordSize
    omega
  | boxNew | unbox | boxSet =>
    rw [List.mem_singleton.mp hn]
    exact Nat.zero_le _
  | _ => exact absurd hn List.not_mem_nil

/-- The words of objects are paid for in instructions. -/
theorem ExprCode.accesses_le {cs : Callees} {e : Expr} {fr fr' : Frame} {code : Code}
    (h : ExprCode cs e fr code fr') {n : Nat} (hn : n ∈ Lowering.accesses code) :
    n ≤ wordSize * (2 ^ 32 + (Op.ofCode code).length) := by
  have hcode := length_accesses_le code
  rw [h.accesses] at hn hcode
  obtain ⟨c, hc, hn⟩ := List.mem_flatMap.mp hn
  have hcomp : (offsets c).length ≤ ((e.read Step.comp?).flatMap offsets).length :=
    (List.sublist_flatten_of_mem (List.mem_map_of_mem hc)).length_le
  refine (offsets_le hn).trans (Nat.mul_le_mul_left _ ?_)
  omega

/-- only a projection can reach beyond the range -/
theorem offsets_lt {c : Comp} (hc : c.IsConstruction → c.operands.length < 2 ^ 30 - 4) :
    (∀ n ∈ offsets c, n < 2 ^ 32) ↔
      ∀ index a, c = .tupleGet index a → index.toNat < 2 ^ 30 - 1 := by
  cases c with
  | adt typeTag variant args =>
    refine ⟨fun _ _ _ => Comp.noConfusion, fun _ n hn => ?_⟩
    have hargs : args.length < 2 ^ 30 - 4 := hc trivial
    have := lt_of_mem_wordsFrom hn
    rw [show (adtFields typeTag variant args).length = args.length + 3 by simp [adtFields]] at this
    unfold wordSize at this
    omega
  | tuple args =>
    refine ⟨fun _ _ _ => Comp.noConfusion, fun _ n hn => ?_⟩
    have hargs : args.length < 2 ^ 30 - 4 := hc trivial
    have := lt_of_mem_wordsFrom hn
    rw [show (tupleFields args).length = args.length + 1 by simp [tupleFields]] at this
    unfold wordSize at this
    omega
  | tupleGet index a =>
    have hone : (∀ n ∈ offsets (.tupleGet index a), n < 2 ^ 32)
        ↔ wordSize * (index.toNat + 1) < 2 ^ 32 := List.forall_mem_singleton
    rw [hone]
    constructor
    · rintro h _ _ ⟨⟩
      unfold wordSize at h
      omega
    · intro h
      have := h index a rfl
      unfold wordSize
      omega
  | boxNew | unbox | boxSet =>
    refine ⟨fun _ _ _ => Comp.noConfusion, fun _ n hn => ?_⟩
    rw [List.mem_singleton.mp hn]
    exact Nat.two_pow_pos 32
  | _ => exact ⟨fun _ _ _ => Comp.noConfusion, fun _ n hn => absurd hn List.not_mem_nil⟩

/-- Offsets fit into 32 bits exactly if the indices of projections are below `2 ^ 30 - 1`. -/
theorem lower_accesses_lt {p : Program} {m : Module} (hm : p.lower.1 = .ok m)
    (hargs : ∀ c ∈ p.comps, c.IsConstruction → c.operands.length < 2 ^ 30 - 4) :
    (∀ d ∈ m.functions, ∀ n ∈ accesses d.code, n < 2 ^ 32) ↔
      ∀ index a, Comp.tupleGet index a ∈ p.comps → index.toNat < 2 ^ 30 - 1 := by
  obtain ⟨cs, h⟩ := lower_ok hm
  calc (∀ d ∈ m.functions, ∀ n ∈ accesses d.code, n < 2 ^ 32)
      ↔ ∀ n ∈ m.functions.flatMap (fun d => accesses d.code), n < 2 ^ 32 := by
        rw [List.forall_mem_flatMap]
    _ ↔ ∀ c ∈ p.comps, ∀ n ∈ offsets c, n < 2 ^ 32 := by
        rw [h.accesses, List.forall_mem_flatMap]
    _ ↔ ∀ c ∈ p.comps, ∀ index a, c = .tupleGet index a → index.toNat < 2 ^ 30 - 1 :=
        forall₂_congr fun c hc => offsets_lt (hargs c hc)
    _ ↔ ∀ index a, Comp.tupleGet index a ∈ p.comps → index.toNat < 2 ^ 30 - 1 :=
        ⟨fun h index a ha => h _ ha index a rfl, fun h c hc index a he => h index a (he ▸ hc)⟩

/-- `let t = (7, 8) in t.index` -/
def field (index : UInt32) : Program :=
  .ofBody (.letOne ⟨"t", 0⟩ (.tuple [.int 7, .int 8]) (.comp (.tupleGet index (.id ⟨"t", 0⟩))))

theorem comps_field (index : UInt32) : (field index).comps =
    [.tuple [.int 7, .int 8], .tupleGet index (.id ⟨"t", 0⟩)] := rfl

theorem arguments_field (index : UInt32) :
    ∀ c ∈ (field index).comps, c.IsConstruction → c.operands.length < 2 ^ 30 - 4 := by
  intro c hc hcon
  rw [comps_field] at hc
  rcases List.mem_cons.mp hc with rfl | hc
  · exact show 2 < 2 ^ 30 - 4 by decide
  · rw [List.mem_singleton.mp hc] at hcon
    exact hcon.elim

theorem lower_accesses_field : ∃ m, (field 1).lower.1 = .ok m ∧
    (∀ c ∈ (field 1).comps, c.IsConstruction → c.operands.length < 2 ^ 30 - 4) ∧
    ∀ d ∈ m.functions, ∀ n ∈ accesses d.code, n < 2 ^ 32 := by
  obtain ⟨m, hm⟩ : ∃ m, (field 1).lower.1 = .ok m := ⟨_, rfl⟩
  refine ⟨m, hm, arguments_field 1, (lower_accesses_lt hm (arguments_field 1)).mpr ?_⟩
  intro index a ha
  rw [comps_field] at ha
  cases List.mem_singleton.mp ((List.mem_cons.mp ha).resolve_left Comp.noConfusion)
  decide

/-- The program is accepted although its projection is beyond 32 bits. -/
theorem field_out_of_range : (field 1073741823).check = .ok () ∧
    (∀ c ∈ (field 1073741823).comps, c.IsConstruction → c.operands.length < 2 ^ 30 - 4) ∧
    ∃ m, (field 1073741823).lower.1 = .ok m ∧
      ∃ d ∈ m.functions, ∃ n ∈ accesses d.code, ¬ n < 2 ^ 32 := by
  refine ⟨by decide +kernel, arguments_field _, _, rfl, _, List.mem_singleton_self _, 2 ^ 32, ?_,
    Nat.lt_irrefl _⟩
  decide +kernel

end Lowering

end AnfWasm
