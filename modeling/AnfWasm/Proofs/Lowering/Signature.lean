import AnfWasm.Proofs.Lowering.Acceptance
import AnfWasm.Proofs.Lowering.Encoding
import AnfWasm.Proofs.Wasm.Sections

/-!
# Signatures describe the binary

The signature of a module is made from the module and not from its bytes.
`Signature.Describes s p d` says that it fits what is decoded from them: exports and imports are the
same in the same order, the type that the index of a function leads to has the arity that the
signature gives, and the index is that of a function of the program `p` that has the name and is
marked for export, or of its entry.

Of what cannot be decoded nothing is said, and what takes up fewer than `2 ^ 32` bytes can be.
-/

namespace AnfWasm

open Wasm

/-- The function of the program that is seen from outside under a name, with its function index and
its number of parameters. -/
inductive Program.Exports (p : Program) : Nat → String → Nat → Prop
  | function {j : Nat} {f : Func} : p.functions[j]? = some f → f.exported = true →
      p.Exports (p.imports.length + j) f.id.name f.params.length
  | entry : p.Exports (p.imports.length + p.functions.length) entryName 0

namespace Wasm

/-- the type of a function by its index, as it is read; imports come first -/
def Decoded.funcType? (d : Decoded) (index : Nat) : Option FuncType :=
  (d.imports.map (·.typeIndex) ++ d.functions)[index]? >>= fun i => d.types[i]?

structure ExportSig.Describes (s : ExportSig) (p : Program) (d : Decoded) (e : ExportEntry) :
    Prop where
  name : s.name = e.name
  kind : s.kind = e.kind
  function : e.kind = .function → ∃ n : UInt32, s.arity = some n ∧
    d.funcType? e.index = some ⟨n.toNat⟩ ∧ p.Exports e.index e.name n.toNat

structure ImportSig.Describes (s : ImportSig) (d : Decoded) (e : ImportEntry) : Prop where
  module : s.module = e.module
  name : s.name = e.name
  arity : d.types[e.typeIndex]? = some ⟨s.arity.toNat⟩

structure Signature.Describes (s : Signature) (p : Program) (d : Decoded) : Prop where
  exports : List.Forall₂ (fun e s => ExportSig.Describes s p d e) d.exports s.exports
  /-- all that the program exports is there -/
  complete : ∀ index name arity, p.Exports index name arity → ⟨name, .function, index⟩ ∈ d.exports
  distinct : (d.exports.map (·.name)).Nodup
  imports : List.Forall₂ (fun e s => ImportSig.Describes s d e) d.imports s.imports
  /-- a name is looked up to what is said of the export of that name -/
  find : ∀ name sig, s.find? name = some sig ↔
    ∃ e, (e, sig) ∈ d.exports.zip s.exports ∧ e.name = name
  absent : ∀ name, s.find? name = none ↔ ∀ e ∈ d.exports, e.name ≠ name

/-! ### looking up names -/

section
variable {es : List ExportEntry} {ss : List ExportSig}

theorem find?_eq_some (h : List.Forall₂ (fun e s => s.name = e.name) es ss)
    (hd : (es.map (·.name)).Nodup) (name : String) (sig : ExportSig) :
    ss.find? (·.name == name) = some sig ↔ ∃ e, (e, sig) ∈ es.zip ss ∧ e.name = name := by
  induction h with
  | nil => simp
  | @cons e s es ss hname hrest ih =>
    obtain ⟨hfirst, hd⟩ := List.nodup_cons.mp hd
    rw [List.find?_cons, List.zip_cons_cons]
    by_cases hs : s.name = name
    · have hse : (s.name == name) = true := beq_iff_eq.mpr hs
      rw [hse]
      constructor
      · intro hsig
        obtain rfl := Option.some.inj hsig
        exact ⟨e, List.mem_cons_self, hname.symm.trans hs⟩
      · rintro ⟨e', he', hn⟩
        rcases List.mem_cons.mp he' with he' | he'
        · rw [(Prod.mk.inj he').2]
        · -- the name would be there twice
          refine absurd (List.mem_map.mpr ⟨e', (List.of_mem_zip he').1, ?_⟩) hfirst
          rw [hn, ← hs, hname]
    · have hse : (s.name == name) = false := beq_eq_false_iff_ne.mpr hs
      rw [hse]
      refine (ih hd).trans ⟨?_, ?_⟩
      · rintro ⟨e', he', hn⟩
        exact ⟨e', List.mem_cons_of_mem _ he', hn⟩
      · rintro ⟨e', he', hn⟩
        rcases List.mem_cons.mp he' with he' | he'
        · exact absurd (hname.trans ((Prod.mk.inj he').1 ▸ hn)) hs
        · exact ⟨e', he', hn⟩

theorem find?_eq_none (h : List.Forall₂ (fun e s => s.name = e.name) es ss) (name : String) :
    ss.find? (·.name == name) = none ↔ ∀ e ∈ es, e.name ≠ name := by
  induction h with
  | nil => simp
  | cons hname _ ih =>
    rw [List.find?_eq_none] at ih ⊢
    rw [List.forall_mem_cons, List.forall_mem_cons, ih, hname, beq_iff_eq]

end

/-! ### exports of a module -/

namespace Module

theorem map_name_exportsFrom (index : Nat) (fs : List FuncDef) :
    (exportsFrom index fs).map (·.2.2) = fs.filterMap (·.exportName) := by
  induction fs generalizing index with
  | nil => rfl
  | cons f fs ih =>
    rw [exportsFrom, List.filterMap_cons]
    cases f.exportName with
    | none => exact ih _
    | some name => exact congrArg (name :: ·) (ih _)

end Module

end Wasm

/-! ### exports of a program -/

namespace Lowering

variable {cs : Callees} {b b' : Build} {p : Program} {m : Module}

/-- the definition is seen from outside as the function asks -/
structure Presents (f : Func) (d : FuncDef) : Prop where
  exportName : d.exportName = if f.exported then some f.id.name else none
  arity : d.arity = f.params.length

theorem lowerFuncs_presents {fs : List Func} {ds : List FuncDef}
    (h : lowerFuncs cs fs b = .ok ds b') : List.Forall₂ Presents fs ds := by
  induction fs generalizing ds b b' with
  | nil =>
    obtain ⟨rfl, -⟩ := pure_ok h
    exact .nil
  | cons f fs ih =>
    obtain ⟨d, b₁, h1, k1⟩ := bind_ok h
    obtain ⟨rest, b₂, h2, k2⟩ := bind_ok k1
    obtain ⟨rfl, -⟩ := pure_ok k2
    refine .cons ?_ (ih h2)
    obtain ⟨⟨code, count⟩, _, -, k1⟩ := bind_ok h1
    obtain ⟨t, _, -, k2⟩ := bind_ok k1
    obtain ⟨rfl, -⟩ := pure_ok k2
    exact ⟨rfl, rfl⟩

theorem lowerEntry_presents {body : Expr} {d : FuncDef} (h : lowerEntry cs body b = .ok d b') :
    d.exportName = some entryName ∧ d.arity = 0 := by
  obtain ⟨⟨code, count⟩, _, -, k1⟩ := bind_ok h
  obtain ⟨t, _, -, k2⟩ := bind_ok k1
  obtain ⟨rfl, -⟩ := pure_ok k2
  exact ⟨rfl, rfl⟩

theorem getElem?_of_forall₂ {α β : Type} {R : α → β → Prop} {xs : List α} {ys : List β}
    (h : List.Forall₂ R xs ys) {j : Nat} {x : α} (hx : xs[j]? = some x) :
    ∃ y, ys[j]? = some y ∧ R x y := by
  obtain ⟨hlt, rfl⟩ := List.getElem?_eq_some_iff.mp hx
  have hlt' : j < ys.length := h.length_eq ▸ hlt
  exact ⟨_, List.getElem?_eq_getElem hlt', h.get hlt hlt'⟩

/-- what is exported of functions and of the entry after them -/
theorem Presents.exports_iff {ds : List FuncDef} {entry : FuncDef}
    (hds : List.Forall₂ Presents p.functions ds)
    (hentry : entry.exportName = some entryName ∧ entry.arity = 0) {index arity : Nat}
    {name : String} : p.Exports index name arity ↔
      ∃ d, (index, d, name) ∈ Module.exportsFrom p.imports.length (ds ++ [entry]) ∧
        d.arity = arity := by
  simp only [Module.mem_exportsFrom]
  constructor
  · rintro (⟨hj, hexported⟩ | _)
    · obtain ⟨d, hd, hpresents⟩ := getElem?_of_forall₂ hds hj
      have hlt := (List.getElem?_eq_some_iff.mp hd).1
      refine ⟨d, ⟨_, ?_, ?_, rfl⟩, hpresents.arity⟩
      · rw [List.getElem?_append_left hlt, hd]
      · exact hpresents.exportName.trans (if_pos hexported)
    · refine ⟨entry, ⟨_, ?_, hentry.1, rfl⟩, hentry.2⟩
      rw [hds.length_eq, List.getElem?_concat_length]
  · rintro ⟨d, ⟨j, hj, hname, rfl⟩, rfl⟩
    by_cases hlt : j < ds.length
    · rw [List.getElem?_append_left hlt] at hj
      obtain ⟨f, hf, hpresents⟩ := getElem?_of_forall₂ hds.flip hj
      by_cases hexported : f.exported = true
      · have hname' := hpresents.exportName.trans (if_pos hexported)
        obtain rfl := Option.some.inj (hname'.symm.trans hname)
        rw [hpresents.arity]
        exact .function hf hexported
      · have hname' := hpresents.exportName.trans (if_neg hexported)
        exact absurd (hname'.symm.trans hname) (by simp)
    · -- only the entry is left
      have hle : j < (ds ++ [entry]).length := (List.getElem?_eq_some_iff.mp hj).1
      rw [List.length_append, List.length_singleton] at hle
      obtain rfl : j = ds.length := by omega
      rw [List.getElem?_concat_length] at hj
      obtain rfl := Option.some.inj hj
      obtain rfl := Option.some.inj (hentry.1.symm.trans hname)
      rw [hentry.2, ← hds.length_eq]
      exact .entry

/-- The exports of a module are those of its program. -/
theorem exports_iff (hm : p.lower.1 = .ok m) {index arity : Nat} {name : String} :
    p.Exports index name arity ↔ ∃ d, (index, d, name) ∈ m.exports ∧ d.arity = arity := by
  obtain ⟨b, hl⟩ := lowerProgram_of_lower hm
  obtain ⟨_, imports, _, _, _, ds, _, entry, _, h1, -, h3, h4, rfl, -⟩ := lowerProgram_steps hl
  have himports := (declareImports_ok h1).1.length_eq
  rw [Presents.exports_iff (lowerFuncs_presents h3) (lowerEntry_presents h4), himports]
  rfl

theorem distinct_exports (hm : p.lower.1 = .ok m) :
    (m.exportNames ++ [memoryName]).Nodup := by
  obtain ⟨b, hl⟩ := lowerProgram_of_lower hm
  obtain ⟨_, _, _, _, _, _, _, _, _, -, -, -, -, -, hr⟩ := lowerProgram_steps hl
  obtain ⟨hd, hmem⟩ := repeated?_eq_none hr
  refine List.nodup_append.mpr ⟨hd, List.nodup_singleton _, fun n hn n' hn' => ?_⟩
  rintro rfl
  exact hmem n hn hn'

/-! ### the signature -/

/-- the type that is reached by the index of an exported function -/
theorem funcType?_of_mem_exports (ht : m.Typed) {index : Nat} {f : FuncDef} {name : String}
    (h : (index, f, name) ∈ m.exports) :
    m.funcType? index = some ⟨f.arity⟩ ∧ ⟨f.arity⟩ ∈ m.types := by
  obtain ⟨j, hj, -, rfl⟩ := Module.mem_exportsFrom.mp h
  have htype := ht.functions f (List.mem_of_getElem? hj)
  rw [Module.funcType?_function hj, htype]
  exact ⟨rfl, List.mem_of_getElem? htype⟩

theorem forall₂_map {α β γ : Type} {R : α → β → Prop} {f : γ → α} {g : γ → β} {xs : List γ}
    (h : ∀ x ∈ xs, R (f x) (g x)) : List.Forall₂ R (xs.map f) (xs.map g) := by
  rw [List.forall₂_map_left_iff, List.forall₂_map_right_iff, List.forall₂_same]
  exact h

theorem describes_exports (hm : p.lower.1 = .ok m) (url : Option String) {d : Decoded}
    (hfuncType : ∀ index, d.funcType? index = m.funcType? index)
    (hsmall : ∀ t ∈ m.types, t.arity < 2 ^ 32) :
    List.Forall₂ (fun e s => ExportSig.Describes s p d e) (m.contents url).exports
      m.signature.exports := by
  refine List.rel_append (forall₂_map ?_) (.cons ⟨rfl, rfl, ExportKind.noConfusion⟩ .nil)
  rintro ⟨index, f, name⟩ hmem
  obtain ⟨htype, hin⟩ := funcType?_of_mem_exports (lower_typed hm) hmem
  have harity : (UInt32.ofNat f.arity).toNat = f.arity :=
    UInt32.toNat_ofNat_of_lt' (hsmall _ hin)
  refine ⟨rfl, rfl, fun _ => ⟨.ofNat f.arity, rfl, ?_, ?_⟩⟩
  · rw [harity, hfuncType, htype]
  · rw [harity]
    exact (exports_iff hm).mpr ⟨f, hmem, rfl⟩

theorem names_contents (m : Module) (url : Option String) :
    (m.contents url).exports.map (·.name) = m.exportNames ++ [memoryName] := by
  rw [Module.exportNames, ← Module.map_name_exportsFrom m.imports.length, Module.contents]
  rw [List.map_append, List.map_map]
  rfl

theorem names_signature (m : Module) :
    m.signature.exports.map (·.name) = m.exportNames ++ [memoryName] := by
  rw [Module.exportNames, ← Module.map_name_exportsFrom m.imports.length, Module.signature]
  rw [List.map_append, List.map_map]
  rfl

theorem describes_of_decode (hm : p.lower.1 = .ok m) {url : Option String} {d : Decoded}
    (hdec : decode (m.encode url).bytes = some d) : m.signature.Describes p d := by
  obtain ⟨⟨htypes, hsmall⟩, himports, hfunctions, hexports⟩ := contents_of_decode hdec
  have hfuncType : ∀ index, d.funcType? index = m.funcType? index := by
    intro index
    rw [Decoded.funcType?, Module.funcType?, htypes, himports, hfunctions, Module.contents]
    rw [List.map_map]
    rfl
  have hagree := describes_exports hm url hfuncType hsmall
  have hdistinct : (d.exports.map (·.name)).Nodup := by
    rw [hexports, names_contents]
    exact distinct_exports hm
  rw [← hexports] at hagree
  have hnames := hagree.imp fun _ _ h => h.name
  refine ⟨hagree, ?_, hdistinct, ?_, find?_eq_some hnames hdistinct, find?_eq_none hnames⟩
  · intro index name arity hp
    obtain ⟨f, hf, -⟩ := (exports_iff hm).mp hp
    rw [hexports]
    exact List.mem_append_left _ (List.mem_map.mpr ⟨_, hf, rfl⟩)
  · rw [himports]
    refine forall₂_map fun i hi => ⟨rfl, rfl, ?_⟩
    rw [htypes]
    exact (lower_typed hm).imports i hi

/-- The signature of a lowered module has distinct names and describes what is decoded from the
bytes of the module. -/
theorem signature_describes (hm : p.lower.1 = .ok m) (url : Option String) :
    (m.signature.exports.map (·.name)).Nodup ∧
    ((m.encode url).bytes.length < 2 ^ 32 → ∃ d, decode (m.encode url).bytes = some d) ∧
    ∀ d, decode (m.encode url).bytes = some d → m.signature.Describes p d := by
  refine ⟨?_, fun hsize => ?_, fun d => describes_of_decode hm⟩
  · rw [names_signature]
    exact distinct_exports hm
  · obtain ⟨cs, h⟩ := lower_ok hm
    exact ⟨_, Module.decode_encode_contents (h.inRange (lower_typed hm) hsize) hsize⟩

/-- has an import, a function of its own and one that is exported behind it -/
def desk : Program where
  source := none
  imports := [⟨⟨"log", 0⟩, "env", "log", 2⟩]
  functions := [
    { id := ⟨"twice", 1⟩
      params := [⟨"a", 2⟩]
      body := .comp (.prim2 .add (.id ⟨"a", 2⟩) (.id ⟨"a", 2⟩))
      exported := false
      span := none },
    { id := ⟨"report", 3⟩
      params := [⟨"b", 4⟩, ⟨"c", 5⟩]
      body := .comp (.callForeign ⟨"log", 0⟩ [.id ⟨"b", 4⟩, .id ⟨"c", 5⟩])
      exported := true
      span := none }]
  body := .comp (.call ⟨"twice", 1⟩ [.int 4])

theorem signature_describes_desk : ∃ m d, desk.lower.1 = .ok m ∧
    decode (m.encode (some "desk.wasm.map")).bytes = some d ∧ m.signature.Describes desk d ∧
    m.signature.find? "report" = some ⟨"report", .function, some 2⟩ := by
  obtain ⟨m, hm, hsize, hfind⟩ : ∃ m, desk.lower.1 = .ok m ∧
      (m.encode (some "desk.wasm.map")).bytes.length < 2 ^ 32 ∧
      m.signature.find? "report" = some ⟨"report", .function, some 2⟩ :=
    ⟨_, rfl, by decide +kernel, by decide +kernel⟩
  obtain ⟨-, hdecodes, hdescribes⟩ := signature_describes hm (some "desk.wasm.map")
  obtain ⟨d, hd⟩ := hdecodes hsize
  exact ⟨m, d, hm, hd, hdescribes d hd, hfind⟩

end Lowering

end AnfWasm
