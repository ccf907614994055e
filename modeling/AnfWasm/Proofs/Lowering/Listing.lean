import AnfWasm.Proofs.Lowering.Encoding
import AnfWasm.Wasm.Text

/-!
# Listings are determined by bytes

A listing shows nothing that is not in the bytes of the module: all its lines can be written from
what a decoder finds, since the arity of a function is that of its type.
-/

namespace AnfWasm.Lowering

open Wasm

/-! ### lines -/

theorem importLines_congr {is js : List ImportDef} (n : Nat)
    (h : is.map (fun i => (⟨i.module, i.name, i.typeIndex⟩ : ImportEntry)) =
      js.map fun i => ⟨i.module, i.name, i.typeIndex⟩) :
    Text.importLines n is = Text.importLines n js := by
  induction is generalizing n js with
  | nil =>
    obtain rfl := List.map_eq_nil_iff.mp h.symm
    rfl
  | cons i is ih =>
    cases js with
    | nil => exact absurd h (by simp)
    | cons j js =>
      obtain ⟨hij, hrest⟩ := List.cons.inj h
      obtain ⟨hmodule, hname, hindex⟩ := ImportEntry.mk.inj hij
      rw [Text.importLines, Text.importLines, hmodule, hname, hindex, ih (n + 1) hrest]

/-- the arity of a function is that of its type, and the rest is in its body -/
theorem funcLines_congr {types : List FuncType} {fs gs : List FuncDef} (n : Nat)
    (hindex : fs.map (·.typeIndex) = gs.map (·.typeIndex))
    (hbody : fs.map (fun f => (f.locals, f.code)) = gs.map fun f => (f.locals, f.code))
    (hfs : ∀ f ∈ fs, types[f.typeIndex]? = some ⟨f.arity⟩)
    (hgs : ∀ f ∈ gs, types[f.typeIndex]? = some ⟨f.arity⟩) :
    Text.funcLines n fs = Text.funcLines n gs := by
  induction fs generalizing n gs with
  | nil =>
    obtain rfl := List.map_eq_nil_iff.mp hindex.symm
    rfl
  | cons f fs ih =>
    cases gs with
    | nil => exact absurd hindex (by simp)
    | cons g gs =>
      obtain ⟨hi, hindex⟩ : f.typeIndex = g.typeIndex ∧ _ := List.cons.inj hindex
      obtain ⟨hb, hbody⟩ := List.cons.inj hbody
      obtain ⟨hlocals, hcode⟩ := Prod.mk.inj hb
      obtain ⟨hf, hfs⟩ := List.forall_mem_cons.mp hfs
      obtain ⟨hg, hgs⟩ := List.forall_mem_cons.mp hgs
      have harity : f.arity = g.arity := by
        rw [hi, hg] at hf
        exact (FuncType.mk.inj (Option.some.inj hf)).symm
      rw [Text.funcLines, Text.funcLines, hi, hlocals, hcode, harity,
        ih (n + 1) hindex hbody hfs hgs]

/-- an exported function as a decoder finds it -/
def exportEntry (x : Nat × FuncDef × String) : ExportEntry := ⟨x.2.2, .function, x.1⟩

def exportLine (e : ExportEntry) : String :=
  Text.line 1 ("(export " ++ Text.quoteName e.name ++ " (func " ++ e.index.repr ++ "))")

theorem exportLines_eq (m : Module) : Text.exportLines m =
    String.join ((m.exports.map exportEntry).map exportLine)
      ++ Text.line 1 ("(export " ++ Text.quoteName memoryName ++ " (memory 0))") := by
  rw [Text.exportLines, List.map_map]
  rfl

/-! ### listings -/

/-- a listing shows what a decoder finds -/
theorem toText_of_contents {m m' : Module} {url url' : Option String} (ht : m.Typed)
    (ht' : m'.Typed) (h : m.contents url = m'.contents url') : m.toText url = m'.toText url' := by
  have htypes : m.types = m'.types := congrArg Decoded.types h
  have himports := congrArg Decoded.imports h
  have hlength : m.imports.length = m'.imports.length := by
    have hlength := congrArg List.length himports
    rwa [Module.contents, Module.contents, List.length_map, List.length_map] at hlength
  have hbodies := congrArg (fun d => d.bodies.map fun b => (b.locals, b.code)) h
  simp only [Module.contents, map_bodyEntries] at hbodies
  have hfuncs := funcLines_congr m.imports.length (congrArg Decoded.functions h) hbodies
    ht.functions (htypes ▸ ht'.functions)
  have hexports : m.exports.map exportEntry = m'.exports.map exportEntry :=
    List.append_cancel_right (congrArg Decoded.exports h)
  have hurl : url = url' := by
    have hcustoms := congrArg Decoded.customs h
    simp only [Module.contents] at hcustoms
    cases url <;> cases url' <;> simp_all
  have hstart : Text.typesStart m = Text.typesStart m' := by
    rw [Text.typesStart, Text.typesStart, htypes]
  rw [Module.toText, Module.toText, hstart, htypes, importLines_congr 0 himports, hfuncs, hlength,
    exportLines_eq, exportLines_eq, hexports, hurl]

/-- modules with the same bytes have the same listing -/
theorem toText_of_bytes {p p' : Program} {m m' : Module} (hm : p.lower.1 = .ok m)
    (hm' : p'.lower.1 = .ok m') {url url' : Option String}
    (hsize : (m.encode url).bytes.length < 2 ^ 32)
    (h : (m.encode url).bytes = (m'.encode url').bytes) : m.toText url = m'.toText url' := by
  obtain ⟨cs, hl⟩ := lower_ok hm
  obtain ⟨cs', hl'⟩ := lower_ok hm'
  have ht := lower_typed hm
  have ht' := lower_typed hm'
  have hdecode := Module.decode_encode_contents (hl.inRange ht hsize) hsize
  rw [h] at hdecode hsize
  rw [Module.decode_encode_contents (hl'.inRange ht' hsize) hsize] at hdecode
  exact toText_of_contents ht ht' (Option.some.inj hdecode).symm

end AnfWasm.Lowering
