import AnfWasm.Proofs.Wasm.Decoding
import Mathlib.Data.List.Forall2

/-!
# What a decoder can find

A reader refuses numbers that have too many bits, and a module can be too large to be read.
`Admits r pos bs rest Q` says what is left without a bound on sizes: if `r` gives something at all,
it has taken `bs` away before `rest` and `Q` holds of what it gives.  A number that has been read is
in range, and so are the arities of the types.

`contents_of_decode` says what every successful decoding of an encoded module finds in the sections
before its code.
-/

namespace AnfWasm.Wasm

namespace Decoder

variable {α β γ : Type} {pos : Nat} {bs cs rest : Bytes} {Q : α → Prop} {R : β → Prop}

/-- if `r` succeeds before `rest`, it takes `bs` away and gives something with `Q` -/
def Admits (r : Reader α) (pos : Nat) (bs rest : Bytes) (Q : α → Prop) : Prop :=
  ∀ a input, r ⟨pos, bs ++ rest⟩ = some (a, input) → input = ⟨pos + bs.length, rest⟩ ∧ Q a

/-! ### sequences of readers -/

theorem Reads.admits {r : Reader α} {a : α} (h : Reads r pos bs rest a) :
    Admits r pos bs rest (· = a) := by
  intro a' input ha'
  obtain ⟨rfl, rfl⟩ := Prod.mk.inj (Option.some.inj (h.symm.trans ha'))
  exact ⟨rfl, rfl⟩

theorem Admits.imp {r : Reader α} {Q' : α → Prop} (h : Admits r pos bs rest Q)
    (himp : ∀ a, Q a → Q' a) : Admits r pos bs rest Q' := by
  intro a input ha
  obtain ⟨hinput, hq⟩ := h a input ha
  exact ⟨hinput, himp a hq⟩

/-- a sequence that succeeds goes on behind its first part -/
theorem Admits.next {r : Reader α} {f : α → Reader β} {x : β × Input}
    (h : Admits r pos bs rest Q) (hx : (r >>= f) ⟨pos, bs ++ rest⟩ = some x) :
    ∃ a, Q a ∧ f a ⟨pos + bs.length, rest⟩ = some x := by
  obtain ⟨⟨a, input⟩, ha, hf⟩ := Option.bind_eq_some_iff.mp hx
  obtain ⟨rfl, hq⟩ := h a input ha
  exact ⟨a, hq, hf⟩

/-- the first part takes nothing -/
theorem Admits.skip {r : Reader α} {f : α → Reader β} {input : Input} {x : β × Input}
    (h : Admits r input.position [] input.rest Q) (hx : (r >>= f) input = some x) :
    ∃ a, Q a ∧ f a input = some x := Admits.next h hx

/-- nothing is known of the first part -/
theorem exists_next {r : Reader α} {f : α → Reader β} {input : Input} {x : β × Input}
    (hx : (r >>= f) input = some x) : ∃ a input', f a input' = some x := by
  obtain ⟨⟨a, input'⟩, -, hf⟩ := Option.bind_eq_some_iff.mp hx
  exact ⟨a, input', hf⟩

theorem Admits.bind {r : Reader α} {f : α → Reader β} (h : Admits r pos bs (cs ++ rest) Q)
    (hf : ∀ a, Q a → Admits (f a) (pos + bs.length) cs rest R) :
    Admits (r >>= f) pos (bs ++ cs) rest R := by
  intro b input hb
  rw [List.append_assoc] at hb
  obtain ⟨a, hq, hb⟩ := h.next hb
  obtain ⟨rfl, hr⟩ := hf a hq b input hb
  rw [List.length_append, Nat.add_assoc]
  exact ⟨rfl, hr⟩

/-- a first part that takes nothing -/
theorem Admits.then {r : Reader α} {f : α → Reader β} (h : Admits r pos [] (bs ++ rest) Q)
    (hf : ∀ a, Q a → Admits (f a) pos bs rest R) : Admits (r >>= f) pos bs rest R :=
  Admits.bind h hf

/-- a last part that takes nothing -/
theorem Admits.finish {r : Reader α} {f : α → Reader β} (h : Admits r pos bs rest Q)
    (hf : ∀ a, Q a → Admits (f a) (pos + bs.length) [] rest R) :
    Admits (r >>= f) pos bs rest R := by
  have hb : Admits (r >>= f) pos (bs ++ []) rest R := Admits.bind h hf
  rwa [List.append_nil] at hb

theorem admits_pure {a : α} (h : Q a) : Admits (pure a) pos [] rest Q := by
  intro a' input ha'
  obtain ⟨rfl, rfl⟩ := Prod.mk.inj (Option.some.inj ha')
  exact ⟨rfl, h⟩

theorem admits_failure : Admits failure pos bs rest Q := by
  intro a input h
  have h : none = some (a, input) := h
  exact absurd h (by simp)

theorem admits_guard {p : Prop} [Decidable p] :
    Admits (guard p : Reader Unit) pos [] rest (fun _ => p) := by
  by_cases hp : p
  · rw [guard, if_pos hp]
    exact admits_pure hp
  · rw [guard, if_neg hp]
    exact admits_failure

/-! ### numbers and names -/

theorem admits_unsigned (bits n : Nat) :
    Admits (unsigned bits) pos (Leb128.unsigned n) rest (fun a => a = n ∧ n < 2 ^ bits) := by
  induction n using Leb128.unsigned.induct generalizing bits pos with
  | case1 n hn =>
    have hbyte : (UInt8.ofNat n).toNat = n := UInt8.toNat_ofNat_of_lt' (Nat.lt_trans hn (by decide))
    rw [Leb128.unsigned, if_pos hn, unsigned]
    refine (reads_byte _).admits.finish ?_
    rintro _ rfl
    simp only [hbyte, if_pos hn]
    exact admits_guard.then fun _ h => admits_pure ⟨rfl, h⟩
  | case2 n hn ih =>
    have hbyte : (UInt8.ofNat (n % 128 + 128)).toNat = n % 128 + 128 :=
      UInt8.toNat_ofNat_of_lt' (Nat.add_lt_add_right (Nat.mod_lt n (by decide)) 128)
    rw [Leb128.unsigned, if_neg hn, unsigned]
    refine (reads_byte _).admits.bind ?_
    rintro _ rfl
    simp only [hbyte, if_neg (Nat.not_lt.mpr (Nat.le_add_left 128 _))]
    by_cases hbits : 7 < bits
    · have hpow := two_pow_seven (Nat.le_of_lt hbits)
      rw [if_pos hbits]
      refine (ih (bits - 7)).finish ?_
      rintro _ ⟨rfl, hlt⟩
      exact admits_pure ⟨by omega, by omega⟩
    · rw [if_neg hbits]
      exact admits_failure

theorem admits_u32 (n : Nat) :
    Admits u32 pos (Binary.size n) rest (fun a => a = n ∧ n < 2 ^ 32) := admits_unsigned 32 n

theorem admits_within {r : Reader α} (h : Admits r pos bs [] Q) :
    Admits (within bs.length r) pos bs rest Q := by
  intro a input ha
  have htake : take bs.length ⟨pos, bs ++ rest⟩ = _ := reads_take bs
  unfold within at ha
  rw [htake] at ha
  change (r ⟨pos, bs⟩ >>= _) = _ at ha
  obtain ⟨⟨b, ⟨next, left⟩⟩, hb, ha⟩ := Option.bind_eq_some_iff.mp ha
  have hr : r ⟨pos, bs ++ []⟩ = some (b, ⟨next, left⟩) := by
    rw [List.append_nil]
    exact hb
  obtain ⟨hnext, hq⟩ := h b _ hr
  obtain ⟨rfl, rfl⟩ := Input.mk.inj hnext
  obtain ⟨rfl, rfl⟩ := Prod.mk.inj (Option.some.inj ha)
  exact ⟨rfl, hq⟩

theorem admits_sized {r : Reader α}
    (h : Admits r (pos + (Binary.size bs.length).length) bs [] Q) :
    Admits (sized r) pos (Binary.sized bs) rest Q := by
  refine (admits_u32 bs.length).bind ?_
  rintro _ ⟨rfl, -⟩
  exact admits_within h

theorem admits_name (s : String) : Admits name pos (Binary.name s) rest (· = s) := by
  refine (admits_u32 (utf8 s).length).bind ?_
  rintro _ ⟨rfl, -⟩
  refine (reads_take (utf8 s)).admits.finish ?_
  rintro _ rfl
  rw [utf8?_utf8]
  exact admits_pure rfl

/-! ### items and sections -/

section
variable {r : Reader α} {enc : γ → Bytes} {P : γ → α → Prop} {xs : List γ}

theorem admits_times (h : ∀ x ∈ xs, ∀ pos rest, Admits r pos (enc x) rest (P x)) :
    Admits (times r xs.length) pos (xs.map enc).flatten rest (List.Forall₂ P xs) := by
  induction xs generalizing pos with
  | nil => exact admits_pure .nil
  | cons x xs ih =>
    rw [List.map_cons, List.flatten_cons, List.length_cons, times]
    refine (h x List.mem_cons_self _ _).bind fun a ha => ?_
    exact (ih fun y hy => h y (List.mem_cons_of_mem _ hy)).finish fun as has =>
      admits_pure (.cons ha has)

theorem admits_vec (h : ∀ x ∈ xs, ∀ pos rest, Admits r pos (enc x) rest (P x)) :
    Admits (vec r) pos (Binary.vec (xs.map enc)) rest
      (fun as => List.Forall₂ P xs as ∧ xs.length < 2 ^ 32) := by
  rw [Binary.vec, List.length_map]
  refine (admits_u32 xs.length).bind ?_
  rintro _ ⟨rfl, hlt⟩
  exact (admits_times h).imp fun as has => ⟨has, hlt⟩

theorem admits_section {id : UInt8} (hid : id ≠ 0x00)
    (h : ∀ x ∈ xs, ∀ pos rest, Admits r pos (enc x) rest (P x)) :
    Admits (sectionOf id r) pos (Binary.sectionOf id (Binary.vec (xs.map enc))) rest
      (fun found => List.Forall₂ P xs found.2) := by
  have hhead : (Binary.sectionOf id (Binary.vec (xs.map enc)) ++ rest).head? = some id := rfl
  have hcustoms : (Binary.sectionOf id (Binary.vec (xs.map enc)) ++ rest).head? ≠ some 0x00 := by
    rw [hhead]
    exact fun h0 => hid (Option.some.inj h0)
  refine reads_get.admits.then ?_
  rintro _ rfl
  refine (reads_customs_none hcustoms).admits.then ?_
  rintro _ rfl
  refine reads_peek.admits.then ?_
  rintro _ rfl
  rw [if_pos hhead]
  refine Admits.bind (reads_token id).admits fun _ _ => ?_
  exact (admits_sized (admits_vec h)).finish fun as has => admits_pure has.1

end

theorem admits_words (n : Nat) :
    Admits (vec wordType) pos (Binary.vec (List.replicate n [Binary.wordType])) rest
      (fun as => as.length = n ∧ n < 2 ^ 32) := by
  have hall : Admits (vec wordType) pos
      (Binary.vec ((List.replicate n ()).map fun _ => [Binary.wordType])) rest _ :=
    admits_vec fun _ _ _ _ => (reads_token 0x7f).admits
  rw [List.map_replicate, List.length_replicate] at hall
  refine hall.imp fun as has => ⟨?_, has.2⟩
  rw [← has.1.length_eq, List.length_replicate]

theorem admits_funcType (t : FuncType) :
    Admits funcType pos (Binary.funcType t) rest (fun a => a = t ∧ t.arity < 2 ^ 32) := by
  have hbytes : Binary.funcType t = [0x60] ++ (Binary.vec (List.replicate t.arity [Binary.wordType])
      ++ Binary.vec (List.replicate 1 [Binary.wordType])) := rfl
  rw [hbytes]
  refine Admits.bind (reads_token 0x60).admits fun _ _ => ?_
  refine (admits_words t.arity).bind ?_
  rintro params ⟨hparams, hlt⟩
  refine (admits_words 1).finish fun _ _ => admits_guard.then fun _ _ => ?_
  rw [hparams]
  exact admits_pure ⟨rfl, hlt⟩

theorem admits_importEntry (i : ImportDef) :
    Admits importEntry pos (Binary.importDef i) rest (· = ⟨i.module, i.name, i.typeIndex⟩) := by
  rw [Binary.importDef, List.append_assoc]
  refine (admits_name i.module).bind ?_
  rintro _ rfl
  refine (admits_name i.name).bind ?_
  rintro _ rfl
  refine Admits.bind (reads_token 0x00).admits fun _ _ => (admits_u32 i.typeIndex).finish ?_
  rintro _ ⟨rfl, -⟩
  exact admits_pure rfl

/-- the byte of a kind -/
def kindByte : ExportKind → UInt8
  | .function => 0x00
  | .memory => 0x02

theorem admits_exportEntry (e : ExportEntry) :
    Admits exportEntry pos (Binary.exportDef (kindByte e.kind) e.name e.index) rest (· = e) := by
  obtain ⟨name, kind, index⟩ := e
  refine (admits_name name).bind ?_
  rintro _ rfl
  refine Admits.bind (reads_byte _).admits ?_
  rintro _ rfl
  cases kind with
  | function | memory =>
    refine (admits_u32 index).finish ?_
    rintro _ ⟨rfl, -⟩
    exact admits_pure rfl

/-! ### modules -/

theorem eq_map_of_forall₂ {f : γ → α} {xs : List γ} {as : List α}
    (h : List.Forall₂ (fun x a => a = f x) xs as) : as = xs.map f := by
  induction h with
  | nil => rfl
  | cons hx _ ih => rw [List.map_cons, hx, ih]

variable {m : Module}

theorem admits_typeSection :
    Admits (sectionOf 1 funcType) pos (Binary.typeSection m) rest
      (fun found => found.2 = m.types ∧ ∀ t ∈ m.types, t.arity < 2 ^ 32) := by
  refine (admits_section (by decide) fun t _ _ _ => admits_funcType t).imp fun found h => ?_
  refine ⟨?_, fun t ht => ?_⟩
  · rw [eq_map_of_forall₂ (f := id) (h.imp fun _ _ ha => ha.1), List.map_id]
  · obtain ⟨n, hn, rfl⟩ := List.getElem_of_mem ht
    exact (h.get hn (h.length_eq ▸ hn)).2

theorem admits_importSection (h0 : rest.head? ≠ some 0x00) (h2 : rest.head? ≠ some 0x02) :
    Admits (sectionOf 2 importEntry) pos (Binary.importSection m) rest
      (fun found => found.2 = m.imports.map fun i => ⟨i.module, i.name, i.typeIndex⟩) := by
  unfold Binary.importSection
  by_cases hi : m.imports.isEmpty
  · rw [if_pos hi, List.isEmpty_iff.mp hi]
    exact (reads_section_none h0 h2).admits.imp fun found h => congrArg Prod.snd h
  · rw [if_neg hi]
    refine (admits_section (by decide) fun i _ _ _ => admits_importEntry i).imp fun found h => ?_
    exact eq_map_of_forall₂ h

theorem admits_functionSection :
    Admits (sectionOf 3 u32) pos (Binary.functionSection m) rest
      (fun found => found.2 = m.functions.map (·.typeIndex)) := by
  refine (admits_section (by decide) fun f _ _ _ => admits_u32 f.typeIndex).imp fun found h => ?_
  exact eq_map_of_forall₂ (h.imp fun _ _ ha => ha.1)

theorem admits_exportSection (url : Option String) :
    Admits (sectionOf 7 exportEntry) pos (Binary.exportSection m) rest
      (fun found => found.2 = (m.contents url).exports) := by
  have hbytes : Binary.exportSection m = Binary.sectionOf 7 (Binary.vec
      ((m.contents url).exports.map fun e =>
        Binary.exportDef (kindByte e.kind) e.name e.index)) := by
    rw [Module.contents, List.map_append, List.map_map]
    rfl
  rw [hbytes]
  refine (admits_section (by decide) fun e _ _ _ => admits_exportEntry e).imp fun found h => ?_
  rw [eq_map_of_forall₂ (f := id) h, List.map_id]

end Decoder

open Decoder in
/-- a decoding that succeeds finds the types, imports, functions and exports of the module -/
theorem contents_of_decode {m : Module} {url : Option String} {d : Decoded}
    (h : decode (m.encode url).bytes = some d) :
    (d.types = m.types ∧ ∀ t ∈ m.types, t.arity < 2 ^ 32) ∧
      d.imports = (m.contents url).imports ∧ d.functions = (m.contents url).functions ∧
      d.exports = (m.contents url).exports := by
  obtain ⟨last, h⟩ : ∃ last, Decoder.module ⟨0, (m.encode url).bytes⟩ = some (d, last) := by
    unfold decode at h
    split at h
    · rename_i hmodule
      exact ⟨_, Option.some.inj h ▸ hmodule⟩
    · exact absurd h (by simp)
  have hfunctions : ∀ id : UInt8, id ≠ 0x03 → ∀ rest : Bytes,
      (Binary.functionSection m ++ rest).head? ≠ some id :=
    fun id hid rest hhead => hid (Option.some.inj hhead).symm
  rw [encode_bytes, Decoder.module] at h
  obtain ⟨_, rfl, h⟩ := Admits.next (reads_take magic).admits h
  obtain ⟨_, -, h⟩ := (reads_guard rfl).admits.skip h
  obtain ⟨_, rfl, h⟩ := Admits.next (reads_take version).admits h
  obtain ⟨_, -, h⟩ := (reads_guard rfl).admits.skip h
  obtain ⟨⟨_, types⟩, htypes, h⟩ := Admits.next admits_typeSection h
  obtain ⟨⟨_, imports⟩, himports, h⟩ := Admits.next
    (admits_importSection (hfunctions 0 (by decide) _) (hfunctions 2 (by decide) _)) h
  obtain ⟨⟨_, functions⟩, hfunctions, h⟩ := Admits.next admits_functionSection h
  obtain ⟨_, rfl, h⟩ := Admits.next reads_memorySection.admits h
  obtain ⟨_, rfl, h⟩ := Admits.next reads_globalSection.admits h
  obtain ⟨⟨_, exports⟩, hexports, h⟩ := Admits.next (admits_exportSection url) h
  -- the code and the custom sections after it do not matter
  obtain ⟨⟨_, bodies⟩, _, h⟩ := exists_next h
  obtain ⟨_, _, h⟩ := exists_next h
  obtain ⟨_, _, h⟩ := exists_next h
  obtain ⟨_, _, h⟩ := exists_next h
  obtain ⟨rfl, -⟩ := Prod.mk.inj (Option.some.inj h)
  exact ⟨htypes, himports, hfunctions, hexports⟩

end AnfWasm.Wasm
