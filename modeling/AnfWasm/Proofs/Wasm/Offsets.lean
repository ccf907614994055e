import AnfWasm.Proofs.Wasm.Decoding

/-!
# Where the bodies of functions start

An encoded module tells where the body of each of its functions starts.  The bodies lie one after
the other in the code section, each after its size, so the offset of a body is the sum of all that
is written before it (`bodyOffset_eq`), and the bytes can be cut there (`encode_cut`).  After the
code section there is at most the section that names the source map.
-/

namespace AnfWasm.Wasm

open Decoder (bodyStarts_cons length_bodyStarts size_ne_nil)

variable {m : Module} {url : Option String} {f : FuncDef} {fs : List FuncDef} {i pos : Nat}

namespace Binary

/-- the functions of a code section, each after its size -/
def bodies (fs : List FuncDef) : Bytes := (fs.map fun f => sized (body f)).flatten

theorem bodies_cons (f : FuncDef) (fs : List FuncDef) :
    bodies (f :: fs) = sized (body f) ++ bodies fs := rfl

theorem bodies_append (fs gs : List FuncDef) : bodies (fs ++ gs) = bodies fs ++ bodies gs := by
  rw [bodies, List.map_append, List.flatten_append]
  rfl

theorem length_sized (bs : Bytes) :
    (sized bs).length = (Leb128.unsigned bs.length).length + bs.length := List.length_append

theorem codePayload_eq (m : Module) :
    codePayload m = size m.functions.length ++ bodies m.functions := by
  rw [codePayload, vec, List.length_map]
  rfl

/-! ### starts -/

theorem getElem?_bodyStarts (hf : fs[i]? = some f) :
    (bodyStarts pos fs)[i]? = some
      (pos + (bodies (fs.take i)).length + (Leb128.unsigned (body f).length).length) := by
  induction fs generalizing i pos with
  | nil => exact absurd hf (by simp)
  | cons g fs ih =>
    rw [bodyStarts_cons]
    cases i with
    | zero =>
      obtain rfl : g = f := by simpa using hf
      rfl
    | succ i =>
      rw [List.getElem?_cons_succ] at hf ⊢
      rw [ih hf, List.take_succ_cons, bodies_cons, List.length_append, Nat.add_assoc pos]

theorem lt_of_mem_bodyStarts {s : Nat} (h : s ∈ bodyStarts pos fs) :
    pos < s ∧ s ≤ pos + (bodies fs).length := by
  induction fs generalizing pos with
  | nil => exact absurd h List.not_mem_nil
  | cons f fs ih =>
    have hpos := List.length_pos_iff.mpr (size_ne_nil (body f).length)
    have hlen : (sized (body f)).length = (size (body f).length).length + (body f).length :=
      length_sized _
    rw [bodyStarts_cons] at h
    rw [bodies_cons, List.length_append]
    rcases List.mem_cons.mp h with rfl | h
    · omega
    · have := ih h
      omega

theorem pairwise_bodyStarts (pos : Nat) (fs : List FuncDef) :
    (bodyStarts pos fs).Pairwise (· < ·) := by
  induction fs generalizing pos with
  | nil => exact .nil
  | cons f fs ih =>
    rw [bodyStarts_cons]
    refine .cons (fun s hs => ?_) (ih _)
    have hlen : (sized (body f)).length = (size (body f).length).length + (body f).length :=
      length_sized _
    have := (lt_of_mem_bodyStarts hs).1
    omega

end Binary

open Binary

/-! ### functions of a module -/

/-- the functions of a module with the positions of their bodies -/
def placed (m : Module) : List (FuncDef × Nat) :=
  m.functions.zip (bodyStarts m.codeStart m.functions)

theorem functions_encode (m : Module) (url : Option String) :
    (m.encode url).functions = (placed m).map fun (f, s) => ⟨f.name, .ofNat s, f.span⟩ := rfl

theorem map_fst_placed (m : Module) : (placed m).map Prod.fst = m.functions :=
  List.map_fst_zip (Nat.le_of_eq (length_bodyStarts _ _).symm)

theorem pairwise_placed (m : Module) : (placed m).Pairwise fun x y => x.2 < y.2 := by
  have hsnd : (placed m).map Prod.snd = bodyStarts m.codeStart m.functions :=
    List.map_snd_zip (Nat.le_of_eq (length_bodyStarts _ _))
  have h := pairwise_bodyStarts m.codeStart m.functions
  rw [← hsnd, List.pairwise_map] at h
  exact h

/-- all that is written before the first function -/
def beforeBodies (m : Module) : Bytes :=
  header m ++ 0x0a :: size (codePayload m).length ++ size m.functions.length

theorem length_beforeBodies (m : Module) : (beforeBodies m).length = m.codeStart :=
  List.length_append

theorem encode_bodies (m : Module) (url : Option String) : (m.encode url).bytes =
    beforeBodies m ++ bodies m.functions ++ (url.map urlSection).getD [] := by
  simp only [Module.encode, codePayload_eq m, beforeBodies, List.append_assoc]

theorem placed_lt (hsize : (m.encode url).bytes.length < 2 ^ 32) {x : FuncDef × Nat}
    (hx : x ∈ placed m) : x.2 < 2 ^ 32 := by
  have hle := (lt_of_mem_bodyStarts (List.of_mem_zip hx).2).2
  rw [encode_bodies, List.length_append, List.length_append, length_beforeBodies] at hsize
  omega

theorem pairwise_offsets (hsize : (m.encode url).bytes.length < 2 ^ 32) :
    (m.encode url).functions.Pairwise fun f g => f.bodyOffset < g.bodyOffset := by
  rw [functions_encode, List.pairwise_map]
  refine (pairwise_placed m).imp_of_mem fun hx hy hlt => ?_
  have hx' := UInt32.toNat_ofNat_of_lt' (placed_lt hsize hx)
  have hy' := UInt32.toNat_ofNat_of_lt' (placed_lt hsize hy)
  show (UInt32.ofNat _).toNat < (UInt32.ofNat _).toNat
  rwa [hx', hy']

/-- the offset of a body is the number of bytes before it -/
theorem bodyOffset_eq (hsize : (m.encode url).bytes.length < 2 ^ 32)
    (hf : m.functions[i]? = some f) {o : FuncOffset} (ho : (m.encode url).functions[i]? = some o) :
    o.bodyOffset.toNat = (beforeBodies m).length + (bodies (m.functions.take i)).length
      + (Leb128.unsigned (body f).length).length := by
  have hplaced : (placed m)[i]? = some (f, _) :=
    List.getElem?_zip_eq_some.mpr ⟨hf, getElem?_bodyStarts hf⟩
  have hlt := placed_lt hsize (List.mem_of_getElem? hplaced)
  rw [functions_encode, List.getElem?_map, hplaced] at ho
  obtain rfl := Option.some.inj ho
  rw [length_beforeBodies]
  exact UInt32.toNat_ofNat_of_lt' hlt

/-- the bytes of a module around the size and the body of one function -/
theorem encode_cut (hf : m.functions[i]? = some f) (url : Option String) :
    (m.encode url).bytes =
      (beforeBodies m ++ bodies (m.functions.take i) ++ Leb128.unsigned (body f).length) ++
        (body f ++ (bodies (m.functions.drop (i + 1)) ++ (url.map urlSection).getD [])) := by
  obtain ⟨hi, rfl⟩ := List.getElem?_eq_some_iff.mp hf
  have hsplit : bodies m.functions = bodies (m.functions.take i) ++
      (sized (body m.functions[i]) ++ bodies (m.functions.drop (i + 1))) := by
    rw [← bodies_cons, ← bodies_append, ← List.drop_eq_getElem_cons hi, List.take_append_drop]
  rw [encode_bodies, hsplit]
  simp only [sized, size, List.append_assoc]

/-- at the offset of a function the bytes of its body start, and those of its size end -/
theorem bytes_at_offset (hsize : (m.encode url).bytes.length < 2 ^ 32)
    (hf : m.functions[i]? = some f) {o : FuncOffset} (ho : (m.encode url).functions[i]? = some o) :
    body f <+: (m.encode url).bytes.drop o.bodyOffset.toNat ∧
      Leb128.unsigned (body f).length <:+ (m.encode url).bytes.take o.bodyOffset.toNat := by
  have hlength : (beforeBodies m ++ bodies (m.functions.take i)
      ++ Leb128.unsigned (body f).length).length = o.bodyOffset.toNat := by
    rw [List.length_append, List.length_append, bodyOffset_eq hsize hf ho]
  constructor
  · rw [encode_cut hf url, ← hlength, List.drop_left]
    exact List.prefix_append _ _
  · rw [encode_cut hf url, ← hlength, List.take_left]
    exact List.suffix_append _ _

theorem bodies_take_succ (hf : m.functions[i]? = some f) :
    (bodies (m.functions.take (i + 1))).length = (bodies (m.functions.take i)).length
      + (Leb128.unsigned (body f).length).length + (body f).length := by
  rw [List.take_add_one, hf, bodies_append, List.length_append, Nat.add_assoc, ← length_sized]
  simp [bodies]

theorem next_bodyOffset (hsize : (m.encode url).bytes.length < 2 ^ 32)
    (hf : m.functions[i]? = some f) {o : FuncOffset} (ho : (m.encode url).functions[i]? = some o)
    {g : FuncDef} (hg : m.functions[i + 1]? = some g) {o' : FuncOffset}
    (ho' : (m.encode url).functions[i + 1]? = some o') :
    o.bodyOffset.toNat + (body f).length + (Leb128.unsigned (body g).length).length
      = o'.bodyOffset.toNat := by
  rw [bodyOffset_eq hsize hg ho', bodies_take_succ hf, bodyOffset_eq hsize hf ho]
  omega

/-! ### sections -/

/-- the bytes of a module without a source map, up to the end of the code section -/
theorem encode_none (m : Module) :
    (m.encode none).bytes = header m ++ sectionOf 0x0a (codePayload m) := by
  simp [Module.encode, sectionOf, sized]

theorem length_encode_none (m : Module) : (m.encode none).bytes.length =
    (beforeBodies m).length + (bodies m.functions).length := by
  rw [encode_bodies, List.length_append, List.length_append]
  rfl

theorem last_bodyOffset (hsize : (m.encode url).bytes.length < 2 ^ 32)
    (hf : m.functions[i]? = some f) {o : FuncOffset} (ho : (m.encode url).functions[i]? = some o)
    (hlast : i + 1 = m.functions.length) :
    o.bodyOffset.toNat + (body f).length = (m.encode none).bytes.length := by
  have hall := bodies_take_succ hf
  rw [hlast, List.take_length] at hall
  rw [length_encode_none, bodyOffset_eq hsize hf ho, hall]
  omega

theorem encode_some (m : Module) (url : String) :
    (m.encode (some url)).bytes = (m.encode none).bytes ++ urlSection url := by
  rw [encode_bodies, encode_bodies]
  simp

/-- **Offsets point at bodies.**  There is one for each function, in order.  The bytes from there on
are the locals and the instructions of the function, and the bytes before are their number.  The
next function starts with its size where the body ends, and the code section ends with the last
body, so the offsets go up.  A source map adds one section at the end of the module and moves
nothing. -/
theorem Module.encode_offsets (m : Module) (url : Option String)
    (hsize : (m.encode url).bytes.length < 2 ^ 32) :
    let e := m.encode url
    e.functions.map (fun o => (o.name, o.span)) = m.functions.map (fun f => (f.name, f.span)) ∧
    header m ++ sectionOf 0x0a (codePayload m) <+: e.bytes ∧
    (∀ (i : Nat) (f : FuncDef) (o : FuncOffset), m.functions[i]? = some f →
      e.functions[i]? = some o →
      body f <+: e.bytes.drop o.bodyOffset.toNat ∧
      Leb128.unsigned (body f).length <:+ e.bytes.take o.bodyOffset.toNat ∧
      (∀ (g : FuncDef) (o' : FuncOffset), m.functions[i + 1]? = some g →
        e.functions[i + 1]? = some o' →
        o.bodyOffset.toNat + (body f).length + (Leb128.unsigned (body g).length).length
          = o'.bodyOffset.toNat) ∧
      (i + 1 = m.functions.length → o.bodyOffset.toNat + (body f).length
        = (header m ++ sectionOf 0x0a (codePayload m)).length)) ∧
    e.functions.Pairwise (fun o o' => o.bodyOffset < o'.bodyOffset) ∧
    ∀ u : String, (m.encode (some u)).bytes = (m.encode none).bytes ++
        sectionOf 0x00 (name "sourceMappingURL" ++ name u) ∧
      (m.encode (some u)).functions = (m.encode none).functions := by
  intro e
  refine ⟨?_, ?_, fun i f o hf ho => ?_, pairwise_offsets hsize, fun u => ⟨encode_some m u, rfl⟩⟩
  · show (m.encode url).functions.map _ = _
    rw [functions_encode, ← map_fst_placed m, List.map_map, List.map_map]
    rfl
  · rw [← encode_none]
    cases url with
    | none => exact List.prefix_rfl
    | some u => exact encode_some m u ▸ List.prefix_append _ _
  · obtain ⟨hbody, hnumber⟩ := bytes_at_offset hsize hf ho
    refine ⟨hbody, hnumber, fun g o' hg ho' => next_bodyOffset hsize hf ho hg ho', fun hlast => ?_⟩
    rw [← encode_none]
    exact last_bodyOffset hsize hf ho hlast

/-- has a body of more than 127 bytes -/
def lengthy : FuncDef :=
  ⟨"f", none, 0, 0, 3, List.replicate 60 (.const 0) ++ List.replicate 59 .drop, none⟩

def terse : FuncDef := ⟨"g", none, 0, 0, 0, [.call 0], none⟩

theorem Module.encode_offsets_lengthy :
    let m : Module := ⟨none, [⟨0⟩], [], [lengthy, terse]⟩
    (m.encode none).bytes.length < 2 ^ 32 ∧ (body lengthy).length = 183 ∧
    ∃ o o', (m.encode none).functions = [o, o'] ∧
      body lengthy <+: (m.encode none).bytes.drop o.bodyOffset.toNat ∧
      o.bodyOffset.toNat + 183 + 1 = o'.bodyOffset.toNat := by
  intro m
  have hsize : (m.encode none).bytes.length < 2 ^ 32 := by decide +kernel
  have hlength : (body lengthy).length = 183 := by decide +kernel
  have hone : (Leb128.unsigned (body terse).length).length = 1 := by decide +kernel
  obtain ⟨-, -, hat, -⟩ := Module.encode_offsets m none hsize
  obtain ⟨hbody, -, hnext, -⟩ := hat 0 lengthy _ rfl rfl
  have hnext := hnext terse _ rfl rfl
  rw [hlength, hone] at hnext
  exact ⟨hsize, hlength, _, _, rfl, hbody, hnext⟩

end AnfWasm.Wasm
