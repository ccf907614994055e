import AnfWasm.Proofs.Lowering.Code
import AnfWasm.Proofs.Lowering.Interner
import AnfWasm.Proofs.Wasm.Validation
import Mathlib.Data.List.Forall2

/-!
# The parts of a lowered module

`Lowers p m cs` says what is known of the module `m` of the program `p` when the lowering has
succeeded: imports and functions are there in order and the entry after them, each with the code of
its body, and `cs` has the indices of what can be called (`lower_ok`).

The types of imports, functions and entry are asked for in this order (`lower_interner`).  So the
index that an import or a function got for its type is right in the end (`Module.Typed`).
-/

namespace AnfWasm

def Import.type (i : Import) : Wasm.FuncType := ⟨i.arity.toNat⟩

def Func.type (f : Func) : Wasm.FuncType := ⟨f.params.length⟩

/-- the types of the functions and of the entry, which takes no arguments -/
def Program.functionTypes (p : Program) : List Wasm.FuncType := p.functions.map Func.type ++ [⟨0⟩]

/-- the types of a program in the order in which they are used -/
def Program.typesUsed (p : Program) : List Wasm.FuncType :=
  p.imports.map Import.type ++ p.functionTypes

/-- the type indices of the imports and functions -/
def Wasm.Module.typeIndices (m : Wasm.Module) : List Nat :=
  m.imports.map (·.typeIndex) ++ m.functions.map (·.typeIndex)

namespace Lowering

open Wasm

variable {cs cs' : Callees} {b b' : Build}

/-! ### callees -/

theorem declare_ok {x : Ident} {c : Callee} (h : declare cs x c b = .ok cs' b') :
    cs' = (x.stamp, c) :: cs ∧ b' = b := by
  unfold declare at h
  by_cases hx : (cs.lookup x.stamp).isSome
  · rw [if_pos hx] at h
    exact (throw_ok h).elim
  · rw [if_neg hx] at h
    exact pure_ok h

theorem lookup_declared {x : Ident} {c d : Callee} {n : UInt32}
    (h : ((x.stamp, c) :: cs).lookup n = some d) :
    cs.lookup n = some d ∨ x.stamp = n ∧ c = d := by
  rw [List.lookup_cons] at h
  by_cases hn : n = x.stamp
  · rw [beq_iff_eq.mpr hn] at h
    exact .inr ⟨hn.symm, Option.some.inj h⟩
  · rw [beq_false_of_ne hn] at h
    exact .inl h

/-- a declaration of the import in the module -/
structure Declares (i : Import) (d : ImportDef) : Prop where
  module : d.module = i.module
  name : d.name = i.name
  arity : d.arity = i.arity

theorem declareImports_ok {is : List Import} {index : Nat} {ds : List ImportDef}
    (h : declareImports cs index is b = .ok (cs', ds) b') :
    List.Forall₂ Declares is ds ∧ ∀ n c, cs'.lookup n = some c → cs.lookup n = some c ∨
      ∃ j i, is[j]? = some i ∧ i.id.stamp = n ∧ c = ⟨index + j, i.arity.toNat, true⟩ := by
  induction is generalizing cs index ds b b' with
  | nil =>
    obtain ⟨he, -⟩ := pure_ok h
    obtain ⟨rfl, rfl⟩ := Prod.mk.inj he
    exact ⟨.nil, fun n c hc => .inl hc⟩
  | cons i is ih =>
    obtain ⟨cs₁, b₁, h1, k1⟩ := bind_ok h
    obtain ⟨rfl, -⟩ := declare_ok h1
    obtain ⟨t, b₂, h2, k2⟩ := bind_ok k1
    obtain ⟨⟨cs₂, rest⟩, b₃, h3, k3⟩ := bind_ok k2
    obtain ⟨he, -⟩ := pure_ok k3
    obtain ⟨rfl, rfl⟩ := Prod.mk.inj he
    obtain ⟨hds, hcs⟩ := ih h3
    refine ⟨.cons ⟨rfl, rfl, rfl⟩ hds, fun n c hc => ?_⟩
    rcases hcs n c hc with hc | ⟨j, i', hj, hn, rfl⟩
    · rcases lookup_declared hc with hc | ⟨hn, rfl⟩
      · exact .inl hc
      · exact .inr ⟨0, i, rfl, hn, rfl⟩
    · refine .inr ⟨j + 1, i', hj, hn, ?_⟩
      rw [Nat.add_assoc, Nat.add_comm 1 j]

theorem declareFuncs_ok {fs : List Func} {index : Nat}
    (h : declareFuncs cs index fs b = .ok cs' b') :
    ∀ n c, cs'.lookup n = some c → cs.lookup n = some c ∨
      ∃ j f, fs[j]? = some f ∧ f.id.stamp = n ∧ c = ⟨index + j, f.params.length, false⟩ := by
  induction fs generalizing cs index b with
  | nil =>
    obtain ⟨rfl, -⟩ := pure_ok h
    exact fun n c hc => .inl hc
  | cons f fs ih =>
    obtain ⟨cs₁, b₁, h1, k1⟩ := bind_ok h
    obtain ⟨rfl, -⟩ := declare_ok h1
    intro n c hc
    rcases ih k1 n c hc with hc | ⟨j, f', hj, hn, rfl⟩
    · rcases lookup_declared hc with hc | ⟨hn, rfl⟩
      · exact .inl hc
      · exact .inr ⟨0, f, rfl, hn, rfl⟩
    · refine .inr ⟨j + 1, f', hj, hn, ?_⟩
      rw [Nat.add_assoc, Nat.add_comm 1 j]

theorem declareImports_interner {is : List Import} {index : Nat} {ds : List ImportDef}
    (h : declareImports cs index is b = .ok (cs', ds) b') :
    b.interner.internAll (is.map Import.type) = (ds.map (·.typeIndex), b'.interner) := by
  induction is generalizing cs index ds b b' with
  | nil =>
    obtain ⟨he, rfl⟩ := pure_ok h
    obtain ⟨rfl, rfl⟩ := Prod.mk.inj he
    rfl
  | cons i is ih =>
    obtain ⟨cs₁, b₁, h1, k1⟩ := bind_ok h
    obtain ⟨-, rfl⟩ := declare_ok h1
    obtain ⟨t, b₂, h2, k2⟩ := bind_ok k1
    obtain ⟨⟨cs₂, rest⟩, b₃, h3, k3⟩ := bind_ok k2
    obtain ⟨he, rfl⟩ := pure_ok k3
    obtain ⟨rfl, rfl⟩ := Prod.mk.inj he
    exact Interner.internAll_cons (intern_ok h2) (ih h3)

theorem declareFuncs_state {fs : List Func} {index : Nat}
    (h : declareFuncs cs index fs b = .ok cs' b') : b' = b := by
  induction fs generalizing cs index b with
  | nil => exact (pure_ok h).2
  | cons f fs ih =>
    obtain ⟨cs₁, b₁, h1, k1⟩ := bind_ok h
    obtain ⟨-, rfl⟩ := declare_ok h1
    exact ih k1

/-! ### bodies -/

theorem count_ofParams (params : List Ident) : (Frame.ofParams params).count = params.length := by
  have h : ∀ (xs : List Ident) (fr : Frame),
      (xs.foldl Frame.bind fr).count = fr.count + xs.length := by
    intro xs
    induction xs with
    | nil => intro fr; rfl
    | cons x xs ih =>
      intro fr
      rw [List.foldl_cons, ih, List.length_cons, Frame.count_bind]
      omega
  rw [Frame.ofParams, h]
  exact Nat.zero_add _

/-- the definition has the code of the body, and as many locals as were allotted on the way -/
structure BodyCode (cs : Callees) (params : List Ident) (body : Expr) (d : FuncDef) : Prop where
  arity : d.arity = params.length
  code : ∃ fr, ExprCode cs body (Frame.ofParams params) d.code fr ∧
    fr.count = params.length + d.locals

theorem lowerBody_ok {params : List Ident} {body : Expr} {context : BodyError → Error} {code : Code}
    {count : Nat} (h : lowerBody cs params body context b = .ok (code, count) b') :
    (∃ fr, ExprCode cs body (Frame.ofParams params) code fr ∧ fr.count = count) ∧
      b'.interner = b.interner := by
  unfold lowerBody at h
  cases hl : lowerExpr cs body (Frame.ofParams params) with
  | ok code' fr =>
    rw [hl] at h
    obtain ⟨u, b₁, h1, k1⟩ := bind_ok h
    obtain ⟨-, rfl⟩ := EStateM.Result.ok.inj h1
    obtain ⟨he, rfl⟩ := pure_ok k1
    obtain ⟨rfl, rfl⟩ := Prod.mk.inj he
    exact ⟨⟨fr, lowerExpr_code body hl, rfl⟩, rfl⟩
  | error e fr =>
    rw [hl] at h
    obtain ⟨u, b₁, -, k1⟩ := bind_ok h
    exact (throw_ok k1).elim

theorem lowerFunc_ok {f : Func} {d : FuncDef} (h : lowerFunc cs f b = .ok d b') :
    BodyCode cs f.params f.body d ∧ b.interner.intern f.type = (d.typeIndex, b'.interner) := by
  obtain ⟨⟨code, count⟩, b₁, h1, k1⟩ := bind_ok h
  obtain ⟨t, b₂, h2, k2⟩ := bind_ok k1
  obtain ⟨rfl, rfl⟩ := pure_ok k2
  obtain ⟨⟨fr, hcode, rfl⟩, hinterner⟩ := lowerBody_ok h1
  have hcount : f.params.length ≤ fr.count := count_ofParams f.params ▸ hcode.allots.count
  refine ⟨⟨rfl, fr, hcode, ?_⟩, hinterner ▸ intern_ok h2⟩
  show fr.count = _ + (fr.count - _)
  omega

theorem lowerFuncs_ok {fs : List Func} {ds : List FuncDef} (h : lowerFuncs cs fs b = .ok ds b') :
    List.Forall₂ (fun f d => BodyCode cs f.params f.body d) fs ds := by
  induction fs generalizing ds b b' with
  | nil =>
    obtain ⟨rfl, -⟩ := pure_ok h
    exact .nil
  | cons f fs ih =>
    obtain ⟨d, b₁, h1, k1⟩ := bind_ok h
    obtain ⟨rest, b₂, h2, k2⟩ := bind_ok k1
    obtain ⟨rfl, -⟩ := pure_ok k2
    exact .cons (lowerFunc_ok h1).1 (ih h2)

theorem lowerFuncs_interner {fs : List Func} {ds : List FuncDef}
    (h : lowerFuncs cs fs b = .ok ds b') :
    b.interner.internAll (fs.map Func.type) = (ds.map (·.typeIndex), b'.interner) := by
  induction fs generalizing ds b b' with
  | nil =>
    obtain ⟨rfl, rfl⟩ := pure_ok h
    rfl
  | cons f fs ih =>
    obtain ⟨d, b₁, h1, k1⟩ := bind_ok h
    obtain ⟨rest, b₂, h2, k2⟩ := bind_ok k1
    obtain ⟨rfl, rfl⟩ := pure_ok k2
    exact Interner.internAll_cons (lowerFunc_ok h1).2 (ih h2)

theorem lowerEntry_ok {body : Expr} {d : FuncDef} (h : lowerEntry cs body b = .ok d b') :
    BodyCode cs [] body d ∧ b.interner.intern ⟨0⟩ = (d.typeIndex, b'.interner) := by
  obtain ⟨⟨code, count⟩, b₁, h1, k1⟩ := bind_ok h
  obtain ⟨t, b₂, h2, k2⟩ := bind_ok k1
  obtain ⟨rfl, rfl⟩ := pure_ok k2
  obtain ⟨⟨fr, hcode, rfl⟩, hinterner⟩ := lowerBody_ok h1
  refine ⟨⟨rfl, fr, hcode, ?_⟩, hinterner ▸ intern_ok h2⟩
  exact (Nat.zero_add _).symm

/-! ### programs -/

/-- What is known of a module when the lowering has succeeded. -/
structure Lowers (p : Program) (m : Module) (cs : Callees) : Prop where
  imports : List.Forall₂ Declares p.imports m.imports
  functions : ∃ ds entry, m.functions = ds ++ [entry] ∧
    List.Forall₂ (fun f d => BodyCode cs f.params f.body d) p.functions ds ∧
    BodyCode cs [] p.body entry
  callee : ∀ n c, cs.lookup n = some c →
    (∃ j i, p.imports[j]? = some i ∧ i.id.stamp = n ∧ c = ⟨j, i.arity.toNat, true⟩) ∨
    ∃ j f, p.functions[j]? = some f ∧ f.id.stamp = n ∧
      c = ⟨p.imports.length + j, f.params.length, false⟩

/-- the steps of a lowering that succeeds -/
theorem lowerProgram_steps {p : Program} {m : Module} (h : lowerProgram p b = .ok m b') :
    ∃ cs₁ imports b₁ cs b₂ ds b₃ entry b₄,
      declareImports [] 0 p.imports b = .ok (cs₁, imports) b₁ ∧
      declareFuncs cs₁ p.imports.length p.functions b₁ = .ok cs b₂ ∧
      lowerFuncs cs p.functions b₂ = .ok ds b₃ ∧ lowerEntry cs p.body b₃ = .ok entry b₄ ∧
      m = ⟨p.source, b₄.interner.types, imports, ds ++ [entry]⟩ ∧
      repeated? [memoryName] m.exportNames = none := by
  obtain ⟨⟨cs₁, imports⟩, b₁, h1, k1⟩ := bind_ok h
  obtain ⟨cs, b₂, h2, k2⟩ := bind_ok k1
  obtain ⟨ds, b₃, h3, k3⟩ := bind_ok k2
  obtain ⟨entry, b₄, h4, k4⟩ := bind_ok k3
  obtain ⟨b₅, b₆, h5, k5⟩ := bind_ok k4
  obtain ⟨rfl, rfl⟩ := EStateM.Result.ok.inj h5
  refine ⟨cs₁, imports, b₁, cs, b₂, ds, b₃, entry, b₄, h1, h2, h3, h4, ?_⟩
  cases hr : repeated? [memoryName] (Module.exportNames ⟨p.source, b₄.interner.types, imports,
      ds ++ [entry]⟩) with
  | some name =>
    simp only [hr] at k5
    exact (throw_ok k5).elim
  | none =>
    simp only [hr] at k5
    obtain ⟨u, b₇, -, k6⟩ := bind_ok k5
    obtain ⟨rfl, -⟩ := pure_ok k6
    exact ⟨rfl, hr⟩

theorem lowerProgram_ok {p : Program} {m : Module} (h : lowerProgram p b = .ok m b') :
    ∃ cs, Lowers p m cs := by
  obtain ⟨cs₁, imports, b₁, cs, b₂, ds, b₃, entry, b₄, h1, h2, h3, h4, rfl, -⟩ :=
    lowerProgram_steps h
  obtain ⟨himports, hforeign⟩ := declareImports_ok h1
  refine ⟨cs, himports, ⟨ds, entry, rfl, lowerFuncs_ok h3, (lowerEntry_ok h4).1⟩, fun n c hc => ?_⟩
  rcases declareFuncs_ok h2 n c hc with hc | hfunc
  · rcases hforeign n c hc with hc | ⟨j, i, hj, hn, rfl⟩
    · exact absurd hc (by simp)
    · exact .inl ⟨j, i, hj, hn, by rw [Nat.zero_add]⟩
  · exact .inr hfunc

/-- all types are asked for one after the other -/
theorem lowerProgram_interner {p : Program} {m : Module} (h : lowerProgram p b = .ok m b') :
    (b.interner.internAll p.typesUsed).1 = m.typeIndices ∧
      (b.interner.internAll p.typesUsed).2.types = m.types := by
  obtain ⟨cs₁, imports, b₁, cs, b₂, ds, b₃, entry, b₄, h1, h2, h3, h4, rfl, -⟩ :=
    lowerProgram_steps h
  obtain rfl := declareFuncs_state h2
  have hentry : b₃.interner.internAll [⟨0⟩] = ([entry.typeIndex], b₄.interner) :=
    Interner.internAll_cons (lowerEntry_ok h4).2 rfl
  rw [Program.typesUsed, Program.functionTypes, Interner.internAll_append,
    declareImports_interner h1, Interner.internAll_append, lowerFuncs_interner h3, hentry,
    Module.typeIndices, List.map_append]
  exact ⟨rfl, rfl⟩

/-- the lowering itself, without its log -/
theorem lowerProgram_of_lower {p : Program} {m : Module} (h : p.lower.1 = .ok m) :
    ∃ b, lowerProgram p .start = .ok m b := by
  unfold Program.lower at h
  cases hl : lowerProgram p .start with
  | ok m' b =>
    rw [hl] at h
    obtain rfl : m' = m := Except.ok.inj h
    exact ⟨b, rfl⟩
  | error e b =>
    rw [hl] at h
    exact absurd h (by simp)

theorem lower_ok {p : Program} {m : Module} (h : p.lower.1 = .ok m) : ∃ cs, Lowers p m cs := by
  obtain ⟨b, hl⟩ := lowerProgram_of_lower h
  exact lowerProgram_ok hl

theorem lower_interner {p : Program} {m : Module} (h : p.lower.1 = .ok m) :
    ((Interner.empty : Interner Nat).internAll p.typesUsed).1 = m.typeIndices ∧
      ((Interner.empty : Interner Nat).internAll p.typesUsed).2.types = m.types := by
  obtain ⟨b, hl⟩ := lowerProgram_of_lower h
  exact lowerProgram_interner hl

theorem Lowers.importTypes {p : Program} {m : Module} (h : Lowers p m cs) :
    p.imports.map Import.type = m.imports.map fun d => ⟨d.arity.toNat⟩ := by
  rw [← List.forall₂_eq_eq_eq, List.forall₂_map_left_iff, List.forall₂_map_right_iff]
  exact h.imports.imp fun i d hd => by rw [Import.type, hd.arity]

theorem Lowers.functionTypes {p : Program} {m : Module} (h : Lowers p m cs) :
    p.functionTypes = m.functions.map fun d => ⟨d.arity⟩ := by
  obtain ⟨ds, entry, hm, hds, hentry⟩ := h.functions
  rw [hm, List.map_append, Program.functionTypes, ← List.forall₂_eq_eq_eq]
  refine List.rel_append ?_ (.cons (congrArg FuncType.mk hentry.arity.symm) .nil)
  rw [List.forall₂_map_left_iff, List.forall₂_map_right_iff]
  exact hds.imp fun f d hd => by rw [Func.type, hd.arity]

/-- each index that was given out leads to the type that was asked for -/
theorem lower_typeIndices {p : Program} {m : Module} (h : p.lower.1 = .ok m) :
    List.Forall₂ (fun t i => m.types[i]? = some t) p.typesUsed m.typeIndices := by
  obtain ⟨hindices, htypes⟩ := lower_interner h
  obtain ⟨-, -, hindexed⟩ := (Interner.inStep_empty : (.empty : Interner Nat).InStep).internAll
    p.typesUsed
  rw [← hindices, ← htypes]
  exact hindexed.imp fun t i ⟨k, hk, hi⟩ => hi ▸ hk

theorem lower_typed {p : Program} {m : Module} (h : p.lower.1 = .ok m) : m.Typed := by
  obtain ⟨cs, hl⟩ := lower_ok h
  have hall := lower_typeIndices h
  rw [Program.typesUsed, hl.importTypes, hl.functionTypes] at hall
  have himports := List.forall₂_take_append _ _ _ hall
  have hfunctions := List.forall₂_drop_append _ _ _ hall
  rw [List.take_left' (by simp), List.forall₂_map_left_iff, List.forall₂_map_right_iff,
    List.forall₂_same] at himports
  rw [List.drop_left' (by simp), List.forall₂_map_left_iff, List.forall₂_map_right_iff,
    List.forall₂_same] at hfunctions
  exact ⟨himports, hfunctions⟩

/-! ### the parts by index -/

namespace Lowers
variable {p : Program} {m : Module}

theorem import_at (h : Lowers p m cs) {j : Nat} {i : Import} (hj : p.imports[j]? = some i) :
    ∃ d, m.imports[j]? = some d ∧ Declares i d := by
  obtain ⟨hlt, rfl⟩ := List.getElem?_eq_some_iff.mp hj
  have hlt' : j < m.imports.length := h.imports.length_eq ▸ hlt
  exact ⟨_, List.getElem?_eq_getElem hlt', h.imports.get hlt hlt'⟩

theorem function_at (h : Lowers p m cs) {j : Nat} {f : Func} (hj : p.functions[j]? = some f) :
    ∃ d, m.functions[j]? = some d ∧ BodyCode cs f.params f.body d := by
  obtain ⟨ds, entry, hm, hds, -⟩ := h.functions
  obtain ⟨hlt, rfl⟩ := List.getElem?_eq_some_iff.mp hj
  have hlt' : j < ds.length := hds.length_eq ▸ hlt
  refine ⟨ds[j], ?_, hds.get hlt hlt'⟩
  rw [hm, List.getElem?_append_left hlt', List.getElem?_eq_getElem hlt']

theorem entry_at (h : Lowers p m cs) :
    ∃ d, m.functions[p.functions.length]? = some d ∧ BodyCode cs [] p.body d := by
  obtain ⟨ds, entry, hm, hds, hentry⟩ := h.functions
  exact ⟨entry, by rw [hm, hds.length_eq, List.getElem?_concat_length], hentry⟩

/-- each function of the module is the code of a function of the program or of the entry -/
theorem function_cases (h : Lowers p m cs) {d : FuncDef} (hd : d ∈ m.functions) :
    (∃ f ∈ p.functions, BodyCode cs f.params f.body d) ∨ BodyCode cs [] p.body d := by
  obtain ⟨ds, entry, hm, hds, hentry⟩ := h.functions
  rw [hm] at hd
  rcases List.mem_append.mp hd with hd | hd
  · obtain ⟨j, hj, rfl⟩ := List.getElem_of_mem hd
    have hj' : j < p.functions.length := hds.length_eq ▸ hj
    exact .inl ⟨p.functions[j], List.getElem_mem hj', hds.get hj' hj⟩
  · rw [List.mem_singleton.mp hd]
    exact .inr hentry

theorem bodyCode (h : Lowers p m cs) {d : FuncDef} (hd : d ∈ m.functions) :
    ∃ params body, BodyCode cs params body d := by
  rcases h.function_cases hd with ⟨f, -, hbody⟩ | hbody
  · exact ⟨f.params, f.body, hbody⟩
  · exact ⟨[], p.body, hbody⟩

end Lowers

end Lowering

end AnfWasm
