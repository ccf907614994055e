import AnfWasm.Proofs.Lowering.Interning
import AnfWasm.Proofs.Lowering.Locals
import AnfWasm.Proofs.Lowering.Validity

/-!
# Numbers of 32 bits

Locals, functions and types are counted in natural numbers here.  For a program that keeps the
scoping rules 32 bits would do: its binders have different stamps, of which there are `2 ^ 32`, and
locals and callees are binders (`lower_narrow`).

The entry is the one function that no binder stands for.  So its index would be too large if all
stamps were those of imports and functions.
-/

namespace AnfWasm

/-! ### binders -/

theorem length_le_of_stamps {xs : List Ident} (h : (stamps xs).Nodup) : xs.length ≤ 2 ^ 32 := by
  have hd : ((stamps xs).map UInt32.toNat).Nodup :=
    h.map fun _ _ heq => UInt32.toNat_inj.mp heq
  have hlt : ∀ n ∈ (stamps xs).map UInt32.toNat, n < 2 ^ 32 := by
    intro n hn
    obtain ⟨s, -, rfl⟩ := List.mem_map.mp hn
    exact s.toNat_lt
  have hle := Lowering.length_le_of_nodup hd hlt
  rwa [List.length_map, stamps, List.length_map] at hle

namespace Program.WellFormed
variable {p : Program} (h : p.WellFormed)
include h

theorem length_binders_le : p.imports.length + p.functions.length +
    (p.functions.flatMap Func.binders).length + p.body.binders.length ≤ 2 ^ 32 := by
  have hle := length_le_of_stamps h.bound_once
  rwa [Program.binders, List.length_append, List.length_append, List.length_append,
    List.length_map, List.length_map] at hle

/-- a function is a binder besides those that it has inside -/
theorem length_func_lt {f : Func} (hf : f ∈ p.functions) :
    f.params.length + f.body.binders.length < 2 ^ 32 := by
  have hle := h.length_binders_le
  have hone := List.length_pos_of_mem hf
  have hinside : f.binders.length ≤ (p.functions.flatMap Func.binders).length :=
    (List.sublist_flatten_of_mem (List.mem_map_of_mem hf)).length_le
  rw [Func.binders, List.length_append] at hinside
  omega

end Program.WellFormed

namespace Wasm

/-- the index that the instruction has -/
def Op.index? : Op → Option Nat
  | .localGet i | .localSet i | .globalGet i | .globalSet i | .call i => some i
  | _ => none

/-- No index and no arity of the module needs more than 32 bits. -/
structure Module.Narrow (m : Module) : Prop where
  imports : ∀ i ∈ m.imports, i.typeIndex < 2 ^ 32
  functions : ∀ d ∈ m.functions, d.typeIndex < 2 ^ 32 ∧ d.arity < 2 ^ 32
  code : ∀ d ∈ m.functions, ∀ op ∈ Op.ofCode d.code, ∀ i ∈ op.index?, i < 2 ^ 32

end Wasm

namespace Lowering

open Wasm Wasm.Validation Wasm.Validation.Checker

variable {p : Program} {m : Module} {cs : Callees}

/-! ### callees and locals -/

theorem Lowers.callee_lt (h : Lowers p m cs) (hwf : p.WellFormed) {n : UInt32} {c : Callee}
    (hc : cs.lookup n = some c) : c.index < 2 ^ 32 := by
  have hle := hwf.length_binders_le
  rcases h.callee n c hc with ⟨j, i, hj, -, rfl⟩ | ⟨j, f, hj, -, rfl⟩
  · have hlt := (List.getElem?_eq_some_iff.mp hj).1
    show j < 2 ^ 32
    omega
  · have hlt := (List.getElem?_eq_some_iff.mp hj).1
    show p.imports.length + j < 2 ^ 32
    omega

theorem BodyCode.count {params : List Ident} {body : Expr} {d : FuncDef}
    (h : BodyCode cs params body d) :
    d.arity + d.locals = params.length + body.binders.length := by
  obtain ⟨harity, fr, hcode, hcount⟩ := h
  have hlists := (hcode.lists (lists_ofParams params)).count
  rw [List.length_append] at hlists
  omega

theorem Lowers.locals_le (h : Lowers p m cs) (hwf : p.WellFormed) {d : FuncDef}
    (hd : d ∈ m.functions) : d.arity < 2 ^ 32 ∧ d.arity + d.locals ≤ 2 ^ 32 := by
  rcases h.function_cases hd with ⟨f, hf, hbody⟩ | hbody
  · have hlt := hwf.length_func_lt hf
    rw [hbody.count, hbody.arity]
    omega
  · have hle := hwf.length_binders_le
    rw [hbody.count, hbody.arity, List.length_nil]
    omega

/-! ### code -/

/-- what code can refer to if 32 bits have to do -/
def narrowContext (m : Module) (locals : Nat) : Context where
  locals
  globals := 1
  funcType? i := if i < 2 ^ 32 then m.funcType? i else none

theorem Lowers.serves_narrow (h : Lowers p m cs) (ht : m.Typed) (hwf : p.WellFormed)
    (locals : Nat) : Serves (narrowContext m locals) cs := by
  refine ⟨Nat.zero_lt_one, fun {foreign f count c} hc => ?_⟩
  exact (if_pos (h.callee_lt hwf hc.found)).trans ((h.serves ht locals).callee hc)

theorem index_lt_of_refers {locals : Nat} (hlocals : locals ≤ 2 ^ 32) {op : Op}
    (h : Refers (narrowContext m locals) op) {i : Nat} (hi : i ∈ op.index?) : i < 2 ^ 32 := by
  cases op with
  | localGet j | localSet j =>
    obtain rfl := Option.some.inj hi
    exact Nat.lt_of_lt_of_le h hlocals
  | globalGet j | globalSet j =>
    obtain rfl := Option.some.inj hi
    exact Nat.lt_trans h (show 1 < 2 ^ 32 by decide)
  | call j =>
    obtain rfl := Option.some.inj hi
    obtain ⟨t, ht⟩ := Option.isSome_iff_exists.mp h
    exact (Option.ite_none_right_eq_some.mp ht).1
  | _ => exact absurd hi (by simp [Op.index?])

theorem Lowers.index_lt (h : Lowers p m cs) (ht : m.Typed) (hwf : p.WellFormed) {d : FuncDef}
    (hd : d ∈ m.functions) : ∀ op ∈ Op.ofCode d.code, ∀ i ∈ op.index?, i < 2 ^ 32 := by
  obtain ⟨params, body, harity, fr, hcode, hcount⟩ := h.bodyCode hd
  have hroom : fr.count ≤ d.arity + d.locals := by omega
  have hs := h.serves_narrow ht hwf (d.arity + d.locals)
  have hrun := refers_of_run (hcode.takes hs (bounded_ofParams params) hroom).run_body
  intro op hop i hi
  exact index_lt_of_refers (h.locals_le hwf hd).2 (hrun op (List.mem_append_left _ hop)) hi

/-! ### modules -/

/-- **Nothing is cut.**  In the module of a program that keeps the scoping rules, the indices of
locals, callees and types and the arities are numbers of 32 bits, and so are the indices of exports
as long as there is a stamp left for the entry. -/
theorem lower_narrow (hp : p.check = .ok ()) (hm : p.lower.1 = .ok m) :
    m.Narrow ∧ (p.imports.length + p.functions.length < 2 ^ 32 →
      ∀ x ∈ m.exports, x.1 < 2 ^ 32) := by
  have hwf := p.check_ok_iff.mp hp
  obtain ⟨cs, h⟩ := lower_ok hm
  have ht := lower_typed hm
  have htypes : m.types.length ≤ 2 ^ 32 :=
    (lower_firstUses hm).length_le (arity_lt_of_typesUsed fun f hf => by
      have := hwf.length_func_lt hf
      omega)
  have htype {i : Nat} {t : FuncType} (hi : m.types[i]? = some t) : i < 2 ^ 32 :=
    Nat.lt_of_lt_of_le (List.getElem?_eq_some_iff.mp hi).1 htypes
  refine ⟨⟨fun i hi => htype (ht.imports i hi), fun d hd => ⟨htype (ht.functions d hd),
    (h.locals_le hwf hd).1⟩, fun d hd => h.index_lt ht hwf hd⟩, fun hfew x hx => ?_⟩
  have hlt := Module.index_lt_of_mem_exportsFrom hx
  obtain ⟨ds, entry, hfunctions, hds, -⟩ := h.functions
  rw [hfunctions, List.length_append, ← hds.length_eq, ← h.imports.length_eq] at hlt
  exact Nat.lt_of_lt_of_le hlt hfew

end Lowering

end AnfWasm
