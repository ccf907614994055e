import AnfWasm.Proofs.Lowering.Accesses
import AnfWasm.Proofs.Lowering.Validity
import AnfWasm.Proofs.Wasm.Decoding

/-!
# Lowered modules can be decoded

The format has room for numbers below `2 ^ 32`, and for offsets below `2 ^ 64`.  The numbers of a
lowered module are bounded by its size: what is counted takes up bytes, an index is that of
something that is counted, a local is paid for with the instruction that sets it
(`ExprCode.count_le`), and the offsets of stores go up by a word with every store.  Only the offset
of a load is one that the program chooses.
-/

namespace AnfWasm.Lowering

open Wasm

/-! ### locals -/

mutual

theorem CompCode.count_le {cs : Callees} {c : Comp} {fr fr' : Frame} {code : Code}
    (h : CompCode cs c fr code fr') : fr'.count ≤ fr.count + (Op.ofCode code).length := by
  match h with
  | .branch ha h1 h2 =>
    have hthen := h1.count_le
    have helse := h2.count_le
    rw [Op.ofCode_append, Op.ofCode_singleton, Op.ofInstr_ifElse]
    simp only [List.cons_append, List.length_append, List.length_cons]
    omega
  | .imm _ | .not _ | .neg _ | .prim2 _ _ | .adt _ | .tuple _ | .tupleGet _ | .boxNew _ | .unbox _
  | .boxSet _ _ | .call _ _ | .callForeign _ _ | .fail => exact Nat.le_add_right _ _

theorem BindingsCode.count_le {cs : Callees} {bs : List Binding} {fr fr' : Frame} {code : Code}
    (h : BindingsCode cs bs fr code fr') : fr'.count ≤ fr.count + (Op.ofCode code).length := by
  match h with
  | .nil => exact Nat.le_refl _
  | .cons h1 h2 =>
    have hcomp := h1.count_le
    have hrest := h2.count_le
    rw [Frame.count_bind] at hrest
    rw [Op.ofCode_append, Op.ofCode_cons, List.length_append, List.length_append]
    show _ ≤ _ + (_ + (1 + _))
    omega

theorem ExprCode.count_le {cs : Callees} {e : Expr} {fr fr' : Frame} {code : Code}
    (h : ExprCode cs e fr code fr') : fr'.count ≤ fr.count + (Op.ofCode code).length := by
  match h with
  | .letIn h1 h2 =>
    have hbindings := h1.count_le
    have hbody := h2.count_le
    rw [Op.ofCode_append, List.length_append]
    omega
  | .seq h1 h2 =>
    have hcomp := h1.count_le
    have hrest := h2.count_le
    rw [Op.ofCode_append, Op.ofCode_cons, List.length_append, List.length_append]
    omega
  | .comp h1 => exact h1.count_le

end

/-! ### sizes -/

mutual

theorem length_ofInstr_le (i : Instr) : (Op.ofInstr i).length ≤ (Binary.instr i).length := by
  match i with
  | .ifElse thenCode elseCode =>
    have hthen := length_ofCode_le thenCode
    have helse := length_ofCode_le elseCode
    simp only [Op.ofInstr, Binary.instr, List.cons_append, List.length_cons, List.length_append]
    omega
  | .unreachable | .drop | .localGet _ | .localSet _ | .globalGet _ | .globalSet _ | .load _
  | .store _ | .const _ | .eqz | .binary _ | .call _ =>
    simp [Op.ofInstr, Binary.instr]

/-- an instruction takes up a byte -/
theorem length_ofCode_le (code : Code) :
    (Op.ofCode code).length ≤ (Binary.instrs code).length := by
  match code with
  | [] => exact Nat.le_refl _
  | i :: is =>
    have hi := length_ofInstr_le i
    have his := length_ofCode_le is
    simp only [Op.ofCode, Binary.instrs, List.length_append]
    omega

end

section
variable {m : Module} {f : FuncDef}

theorem code_le_section (hf : f ∈ m.functions) :
    (Op.ofCode f.code).length ≤ (Binary.sectionOf 10 (Binary.codePayload m)).length := by
  have hitem : (Binary.sized (Binary.body f)).length ≤ (Binary.codePayload m).length :=
    Decoder.length_le_vec (List.mem_map_of_mem hf)
  have hsection := Decoder.length_le_sectionOf 10 (Binary.codePayload m)
  have hcode := length_ofCode_le f.code
  simp only [Binary.sized, Binary.body, List.length_append] at hitem
  omega

theorem arity_le_section {i : Nat} {t : FuncType} (h : m.types[i]? = some t) :
    t.arity ≤ (Binary.typeSection m).length := by
  have hitem : (Binary.funcType t).length ≤ (Binary.vec (m.types.map Binary.funcType)).length :=
    Decoder.length_le_vec (List.mem_map_of_mem (List.mem_of_getElem? h))
  have hsection := Decoder.length_le_sectionOf 1 (Binary.vec (m.types.map Binary.funcType))
  have harity := Decoder.arity_le_funcType t
  rw [Binary.typeSection]
  omega

theorem typeIndex_lt_section {i : Nat} {t : FuncType} (h : m.types[i]? = some t) :
    i < (Binary.typeSection m).length :=
  Nat.lt_of_lt_of_le (List.getElem?_eq_some_iff.mp h).1 (Decoder.types_le_section m)

theorem index_lt_of_funcType? {i : Nat} (h : (m.funcType? i).isSome) :
    i < m.imports.length + m.functions.length := by
  obtain ⟨t, ht⟩ := Option.isSome_iff_exists.mp h
  obtain ⟨j, hj, -⟩ := Option.bind_eq_some_iff.mp ht
  have hi := (List.getElem?_eq_some_iff.mp hj).1
  rwa [List.length_append, List.length_map, List.length_map] at hi

end

/-- what valid code of so many instructions refers to -/
theorem op_inRange {op : Op} {locals : Nat} {m : Module} {n : Nat}
    (hrefers : Validation.Checker.Refers (m.context locals) op)
    (hoffset : ∀ k ∈ op.offset?, k ≤ wordSize * (2 ^ 32 + n)) (hlocals : locals < 2 ^ 32)
    (hfuncs : m.imports.length + m.functions.length < 2 ^ 32) (hn : n < 2 ^ 32) : op.InRange := by
  cases op with
  | localGet i | localSet i => exact Nat.lt_trans hrefers hlocals
  | globalGet i | globalSet i => exact Nat.lt_trans hrefers (show 1 < 2 ^ 32 by decide)
  | call i => exact Nat.lt_trans (index_lt_of_funcType? hrefers) hfuncs
  | load offset | store offset =>
    show offset < 2 ^ 64
    have := hoffset offset rfl
    unfold wordSize at this
    omega
  | _ => trivial

theorem Lowers.inRange {p : Program} {cs : Callees} {m : Module} (h : Lowers p m cs) (ht : m.Typed)
    {url : Option String} (hsize : (m.encode url).bytes.length < 2 ^ 32) : m.InRange := by
  rw [Decoder.encode_bytes] at hsize
  simp only [List.length_append] at hsize
  refine ⟨fun i hi => ?_, fun f hf => ⟨?_, ?_⟩⟩
  · have := typeIndex_lt_section (ht.imports i hi)
    omega
  · have := typeIndex_lt_section (ht.functions f hf)
    omega
  · have harity : f.arity ≤ _ := arity_le_section (ht.functions f hf)
    have hcode := code_le_section hf
    obtain ⟨params, body, hparams, fr, hbody, hcount⟩ := h.bodyCode hf
    have hlocals := hbody.count_le
    rw [count_ofParams] at hlocals
    refine ⟨by omega, fun op hop => ?_⟩
    have hrefers := Module.refers_of_validates (h.validates ht hf) (ht.functions f hf) op hop
    have hfuncs := Decoder.functions_le_section m
    have himports := Decoder.imports_le_section m
    have hoffset : ∀ k ∈ op.offset?, k ≤ wordSize * (2 ^ 32 + (Op.ofCode f.code).length) :=
      fun k hk => hbody.accesses_le (List.mem_filterMap.mpr ⟨op, hop, hk⟩)
    exact op_inRange hrefers hoffset (by omega) (by omega) (by omega)

/-! ### the theorem -/

theorem map_bodyEntries (pos : Nat) (fs : List FuncDef) :
    (Decoder.bodyEntries pos fs).map (fun b => (b.locals, b.code)) =
      fs.map fun f => (f.locals, f.code) := by
  induction fs generalizing pos with
  | nil => rfl
  | cons f fs ih => exact congrArg (_ :: ·) (ih _)

/-- **Decoding gives the module back**: a lowered module whose bytes can be counted in 32 bits is
decoded to the end, and all that it has is found, in order.  The last section names the source map
if one is given. -/
theorem decode_encode_lower {p : Program} {m : Module} (hm : p.lower.1 = .ok m)
    (url : Option String) (hsize : (m.encode url).bytes.length < 2 ^ 32) :
    ∃ d, decode (m.encode url).bytes = some d ∧
      d.types = m.types ∧
      d.imports = m.imports.map (fun i => ⟨i.module, i.name, i.typeIndex⟩) ∧
      d.functions = m.functions.map (·.typeIndex) ∧
      d.memories = [⟨1, none⟩] ∧
      d.globals = [⟨true, [.const 0]⟩] ∧
      d.exports = m.exports.map (fun (index, _, name) => ⟨name, .function, index⟩)
        ++ [⟨memoryName, .memory, 0⟩] ∧
      d.bodies.map (fun b => (b.locals, b.code)) = m.functions.map (fun f => (f.locals, f.code)) ∧
      d.customs = (url.map CustomEntry.sourceMappingUrl).toList := by
  obtain ⟨cs, h⟩ := lower_ok hm
  have hrange := h.inRange (lower_typed hm) hsize
  exact ⟨m.contents url, Module.decode_encode_contents hrange hsize, rfl, rfl, rfl, rfl, rfl, rfl,
    map_bodyEntries _ _, rfl⟩

/-- has an import with a name in another script, a branch, stores, and constants of several bytes -/
def ledger : Program where
  source := some "ledger.txt"
  imports := [⟨⟨"log", 0⟩, "env", "журнал", 1⟩]
  functions := [{
    id := ⟨"f", 1⟩
    params := [⟨"a", 2⟩]
    body := .letOne ⟨"x", 3⟩ (.tuple [.id ⟨"a", 2⟩, .int (-7)])
      (.comp (.branch (.id ⟨"a", 2⟩) (.comp (.tupleGet 1 (.id ⟨"x", 3⟩)))
        (.comp (.callForeign ⟨"log", 0⟩ [.int 300]))))
    exported := true
    span := none }]
  body := .comp (.call ⟨"f", 1⟩ [.int 1])

theorem decode_encode_ledger : ∃ m, ledger.lower.1 = .ok m ∧
    (m.encode (some "ledger.wasm.map")).bytes.length < 2 ^ 32 ∧
    ∃ d, decode (m.encode (some "ledger.wasm.map")).bytes = some d ∧
      d.imports = m.imports.map (fun i => ⟨i.module, i.name, i.typeIndex⟩) ∧
      d.bodies.map (fun b => (b.locals, b.code)) = m.functions.map (fun f => (f.locals, f.code)) ∧
      d.customs = [.sourceMappingUrl "ledger.wasm.map"] := by
  obtain ⟨m, hm, hsize⟩ : ∃ m, ledger.lower.1 = .ok m ∧
      (m.encode (some "ledger.wasm.map")).bytes.length < 2 ^ 32 := ⟨_, rfl, by decide +kernel⟩
  obtain ⟨d, hd, -, himports, -, -, -, -, hbodies, hcustoms⟩ := decode_encode_lower hm _ hsize
  exact ⟨m, hm, hsize, d, hd, himports, hbodies, hcustoms⟩

end AnfWasm.Lowering
