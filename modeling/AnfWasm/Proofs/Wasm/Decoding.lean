import AnfWasm.Proofs.Wasm.Decoder
import AnfWasm.Proofs.Wasm.Validation
import AnfWasm.Wasm.Binary

/-!
# What is written is read

`Reads r pos bs rest a` says that the reader `r` takes `bs` away before `rest`, whatever that is,
and gives `a`.  There is a lemma of this form for each part of the format, from numbers to sections,
and `decode_encode_contents` puts them together.

A reader refuses a number that has too many bits.  Sizes and counts have not, because what they
count is in the bytes of the module and these are fewer than `2 ^ 32`; that the indices, offsets and
numbers of locals have not is asked for (`Module.InRange`).
-/

namespace AnfWasm.Wasm.Decoder

variable {α β : Type} {pos : Nat} {bs cs rest : Bytes}

/-- from position `pos` on, `r` takes `bs` away before `rest` and gives `a` -/
def Reads (r : Reader α) (pos : Nat) (bs rest : Bytes) (a : α) : Prop :=
  r ⟨pos, bs ++ rest⟩ = some (a, ⟨pos + bs.length, rest⟩)

/-! ### sequences of readers -/

theorem reads_pure (a : α) : Reads (pure a) pos [] rest a := rfl

theorem Reads.bind {r : Reader α} {f : α → Reader β} {a : α} {b : β}
    (h : Reads r pos bs (cs ++ rest) a) (hf : Reads (f a) (pos + bs.length) cs rest b) :
    Reads (r >>= f) pos (bs ++ cs) rest b := by
  show (r ⟨pos, (bs ++ cs) ++ rest⟩ >>= fun x => f x.1 x.2) = _
  rw [List.append_assoc, h]
  show f a ⟨pos + bs.length, cs ++ rest⟩ = _
  rw [hf, List.length_append, Nat.add_assoc]

/-- a first part that takes nothing -/
theorem Reads.then {r : Reader α} {f : α → Reader β} {a : α} {b : β}
    (h : Reads r pos [] (bs ++ rest) a) (hf : Reads (f a) pos bs rest b) :
    Reads (r >>= f) pos bs rest b :=
  Reads.bind h hf

/-- a last part that takes nothing -/
theorem Reads.finish {r : Reader α} {f : α → Reader β} {a : α} {b : β}
    (h : Reads r pos bs rest a) (hf : Reads (f a) (pos + bs.length) [] rest b) :
    Reads (r >>= f) pos bs rest b := by
  have hb : Reads (r >>= f) pos (bs ++ []) rest b := Reads.bind h hf
  rwa [List.append_nil] at hb

theorem reads_guard {p : Prop} [Decidable p] (hp : p) :
    Reads (guard p : Reader Unit) pos [] rest () := by
  rw [guard, if_pos hp]
  exact reads_pure ()

theorem reads_get : Reads get pos [] rest ⟨pos, rest⟩ := rfl

theorem reads_peek : Reads peek pos [] rest rest.head? := rfl

theorem reads_byte (b : UInt8) : Reads byte pos [b] rest b := rfl

theorem reads_token (b : UInt8) : Reads (token b) pos [b] rest () :=
  (reads_byte b).bind (reads_guard rfl)

theorem reads_take (bs : Bytes) : Reads (take bs.length) pos bs rest bs := by
  unfold Reads take
  rw [if_pos (by simp)]
  simp

theorem reads_within {r : Reader α} {a : α} (h : Reads r pos bs [] a) :
    Reads (within bs.length r) pos bs rest a := by
  have hr : r ⟨pos, bs⟩ = some (a, ⟨pos + bs.length, []⟩) := by
    rw [← h, List.append_nil]
  have htake : take bs.length ⟨pos, bs ++ rest⟩ = _ := reads_take bs
  unfold Reads within
  rw [htake]
  show (r ⟨pos, bs⟩ >>= _) = _
  rw [hr]
  rfl

/-! ### numbers -/

/-- seven bits less -/
theorem two_pow_seven {bits : Nat} (h : 7 ≤ bits) : 2 ^ bits = 2 ^ (bits - 7) * 128 :=
  (Nat.pow_sub_mul_pow 2 h).symm

theorem seven_lt_of_le_two_pow {bits n : Nat} (h : n < 2 ^ bits) (hn : 128 ≤ n) : 7 < bits := by
  have hpow : 2 ^ 7 < 2 ^ bits := Nat.lt_of_le_of_lt hn h
  exact (Nat.pow_lt_pow_iff_right (by decide)).mp hpow

theorem reads_unsigned {bits n : Nat} (h : n < 2 ^ bits) :
    Reads (unsigned bits) pos (Leb128.unsigned n) rest n := by
  induction n using Leb128.unsigned.induct generalizing bits pos with
  | case1 n hn =>
    have hbyte : (UInt8.ofNat n).toNat = n := UInt8.toNat_ofNat_of_lt' (Nat.lt_trans hn (by decide))
    rw [Leb128.unsigned, if_pos hn, unsigned]
    refine (reads_byte _).finish ?_
    simp only [hbyte, if_pos hn]
    exact (reads_guard h).then (reads_pure n)
  | case2 n hn ih =>
    have hbyte : (UInt8.ofNat (n % 128 + 128)).toNat = n % 128 + 128 :=
      UInt8.toNat_ofNat_of_lt' (Nat.add_lt_add_right (Nat.mod_lt n (by decide)) 128)
    have hbits := seven_lt_of_le_two_pow h (Nat.le_of_not_lt hn)
    have hpow := two_pow_seven (Nat.le_of_lt hbits)
    have hrest : n / 128 < 2 ^ (bits - 7) := by omega
    have hvalue : 128 * (n / 128) + (n % 128 + 128 - 128) = n := by omega
    rw [Leb128.unsigned, if_neg hn, unsigned]
    refine (reads_byte _).bind ?_
    simp only [hbyte, if_neg (Nat.not_lt.mpr (Nat.le_add_left 128 _)), if_pos hbits]
    refine (ih hrest).finish ?_
    rw [hvalue]
    exact reads_pure n

/-- `n` is a signed number of so many bits -/
def FitsSigned (bits : Nat) (n : Int) : Prop :=
  -((2 ^ (bits - 1) : Nat) : Int) ≤ n ∧ n < ((2 ^ (bits - 1) : Nat) : Int)

theorem reads_signed {bits : Nat} {n : Int} (h : FitsSigned bits n) :
    Reads (signed bits) pos (Leb128.signed n) rest n := by
  induction n using Leb128.signed.induct generalizing bits pos with
  | case1 n hn =>
    obtain ⟨hlow, hhigh⟩ := h
    have hbyte : (UInt8.ofNat (n % 128).toNat).toNat = (n % 128).toNat :=
      UInt8.toNat_ofNat_of_lt' (show _ < 256 by omega)
    rw [Leb128.signed, if_pos hn, signed]
    refine (reads_byte _).finish ?_
    by_cases hpos : 0 ≤ n
    · simp only [hbyte, if_pos (show (n % 128).toNat < 64 by omega)]
      refine (reads_guard (by omega)).then ?_
      rw [show (((n % 128).toNat : Nat) : Int) = n by omega]
      exact reads_pure n
    · -- bit six says that the number is negative
      simp only [hbyte, if_neg (show ¬(n % 128).toNat < 64 by omega),
        if_pos (show (n % 128).toNat < 128 by omega)]
      refine (reads_guard (by omega)).then ?_
      rw [show (((n % 128).toNat : Nat) : Int) - 128 = n by omega]
      exact reads_pure n
  | case2 n hn ih =>
    obtain ⟨hlow, hhigh⟩ := h
    have hbyte : (UInt8.ofNat ((n % 128).toNat + 128)).toNat = (n % 128).toNat + 128 :=
      UInt8.toNat_ofNat_of_lt' (show _ < 256 by omega)
    have hbits : 7 < bits := by
      refine Nat.lt_of_not_le fun hle => hn ?_
      have hpow : 2 ^ (bits - 1) ≤ 2 ^ 6 := Nat.pow_le_pow_right (by decide) (by omega)
      omega
    have hpow : 2 ^ (bits - 1) = 2 ^ (bits - 7 - 1) * 128 := by
      rw [two_pow_seven (show 7 ≤ bits - 1 by omega), Nat.sub_right_comm]
    have hrest : FitsSigned (bits - 7) (n / 128) := ⟨by omega, by omega⟩
    have hvalue : 128 * (n / 128) + ((((n % 128).toNat + 128 : Nat) : Int) - 128) = n := by omega
    rw [Leb128.signed, if_neg hn, signed]
    refine (reads_byte _).bind ?_
    simp only [hbyte, if_neg (show ¬(n % 128).toNat + 128 < 64 by omega),
      if_neg (show ¬(n % 128).toNat + 128 < 128 by omega), if_pos hbits]
    refine (ih hrest).finish ?_
    rw [hvalue]
    exact reads_pure n

theorem fitsSigned_toInt (n : Int32) : FitsSigned 32 n.toInt := ⟨n.le_toInt, n.toInt_lt⟩

/-! ### sizes and names -/

theorem reads_u32 {n : Nat} (h : n < 2 ^ 32) : Reads u32 pos (Binary.size n) rest n :=
  reads_unsigned h

theorem size_of_lt {n : Nat} (h : n < 128) : Binary.size n = [.ofNat n] := by
  rw [Binary.size, Leb128.unsigned, if_pos h]

theorem reads_sized {r : Reader α} {a : α}
    (h : Reads r (pos + (Binary.size bs.length).length) bs [] a) (hn : bs.length < 2 ^ 32) :
    Reads (sized r) pos (Binary.sized bs) rest a :=
  (reads_u32 hn).bind (reads_within h)

theorem utf8?_utf8 (s : String) : utf8? (utf8 s) = some s := dif_pos s.isValidUTF8

theorem reads_name {s : String} (h : (Binary.name s).length < 2 ^ 32) :
    Reads name pos (Binary.name s) rest s := by
  have hn : (utf8 s).length < 2 ^ 32 := by
    rw [Binary.name, Binary.sized, List.length_append] at h
    omega
  refine (reads_u32 hn).bind ((reads_take (utf8 s)).finish ?_)
  rw [utf8?_utf8]
  exact reads_pure s

/-! ### instructions -/

end Decoder

/-- the numbers of the instruction are those that the format has -/
def Op.InRange : Op → Prop
  | .localGet i | .localSet i | .globalGet i | .globalSet i | .call i => i < 2 ^ 32
  | .load offset | .store offset => offset < 2 ^ 64
  | _ => True

/-- so are those of all instructions, in blocks too -/
def InRange (code : Code) : Prop := ∀ op ∈ Op.ofCode code, op.InRange

theorem InRange.cons {i : Instr} {is : Code} (h : InRange (i :: is)) :
    (∀ op ∈ Op.ofInstr i, op.InRange) ∧ InRange is :=
  List.forall_mem_append.mp h

theorem inRange_ifElse {thenCode elseCode : Code}
    (h : ∀ op ∈ Op.ofInstr (.ifElse thenCode elseCode), op.InRange) :
    InRange thenCode ∧ InRange elseCode := by
  rw [Op.ofInstr_ifElse] at h
  exact ⟨fun op hop => h op (by simp [hop]), fun op hop => h op (by simp [hop])⟩

namespace Decoder

theorem reads_memArg {offset : Nat} (h : offset < 2 ^ 64) :
    Reads memArg pos (Binary.memArg offset) rest offset := by
  have halign : Reads u32 pos (Binary.size 2) (Leb128.unsigned offset ++ rest) 2 :=
    reads_u32 (by decide)
  rw [size_of_lt (by decide)] at halign
  exact halign.bind ((reads_guard rfl).then (reads_unsigned h))

theorem reads_plain {i : Instr} (hi : ∀ thenCode elseCode, i ≠ .ifElse thenCode elseCode)
    (hr : ∀ op ∈ Op.ofInstr i, op.InRange) :
    ∃ b args, Binary.instr i = b :: args ∧ (b ≠ 0x04 ∧ b ≠ 0x05 ∧ b ≠ 0x0b) ∧
      ∀ pos rest, Reads (plain b) pos args rest i := by
  cases i with
  | ifElse t e => exact absurd rfl (hi t e)
  | unreachable | drop | eqz =>
    exact ⟨_, _, rfl, by decide, fun pos rest => reads_pure _⟩
  | localGet i | localSet i | globalGet i | globalSet i | call i =>
    have hi : i < 2 ^ 32 := hr _ List.mem_cons_self
    exact ⟨_, _, rfl, by decide, fun pos rest => (reads_u32 hi).finish (reads_pure _)⟩
  | load offset | store offset =>
    have ho : offset < 2 ^ 64 := hr _ List.mem_cons_self
    exact ⟨_, _, rfl, by decide, fun pos rest => (reads_memArg ho).finish (reads_pure _)⟩
  | const n =>
    refine ⟨_, _, rfl, by decide, fun pos rest => ?_⟩
    refine (reads_signed (fitsSigned_toInt n)).finish ?_
    rw [Int32.ofInt_toInt]
    exact reads_pure _
  | binary op =>
    cases op <;> exact ⟨_, _, rfl, by decide, fun pos rest => reads_pure _⟩

theorem instrs_length_cons (i : Instr) (is : Code) :
    (Binary.instrs is).length < (Binary.instrs (i :: is)).length := by
  rw [Binary.instrs, List.length_append]
  cases i <;> simp [Binary.instr]

section
variable {fuel : Nat} {code thenCode elseCode : Code} {stop b : UInt8}

theorem reads_block_end (hstop : stop = 0x05 ∨ stop = 0x0b) :
    Reads (block (fuel + 1)) pos [stop] rest ([], stop) := by
  rw [block]
  refine (reads_byte stop).finish ?_
  rw [if_pos hstop]
  exact reads_pure _

theorem reads_block_plain {i : Instr} {args : Bytes}
    (hb : b ≠ 0x04 ∧ b ≠ 0x05 ∧ b ≠ 0x0b)
    (hi : Reads (plain b) (pos + 1) args (bs ++ rest) i)
    (hcode : Reads (block fuel) (pos + 1 + args.length) bs rest (code, stop)) :
    Reads (block (fuel + 1)) pos ([b] ++ (args ++ bs)) rest (i :: code, stop) := by
  rw [block]
  refine Reads.bind (reads_byte b) ?_
  rw [if_neg (not_or.mpr hb.2), if_neg hb.1]
  exact hi.bind (hcode.finish (reads_pure _))

theorem reads_block_branch {thenBytes elseBytes : Bytes}
    (hthen : Reads (block fuel) (pos + 2) thenBytes (elseBytes ++ bs ++ rest) (thenCode, 0x05))
    (helse : Reads (block fuel) (pos + 2 + thenBytes.length) elseBytes (bs ++ rest)
      (elseCode, 0x0b))
    (hcode : Reads (block fuel) (pos + 2 + thenBytes.length + elseBytes.length) bs rest
      (code, stop)) :
    Reads (block (fuel + 1)) pos ([0x04] ++ ([0x7f] ++ (thenBytes ++ (elseBytes ++ bs)))) rest
      (.ifElse thenCode elseCode :: code, stop) := by
  rw [block]
  refine Reads.bind (reads_byte 0x04) ?_
  rw [if_neg (by decide), if_pos rfl]
  refine Reads.bind (reads_token 0x7f) (hthen.bind ?_)
  have hclosed : Reads (closed (block fuel)) _ elseBytes (bs ++ rest) elseCode :=
    helse.finish ((reads_guard rfl).then (reads_pure _))
  exact hclosed.bind (hcode.finish (reads_pure _))

/-- code and the byte that ends its block -/
theorem reads_block (hr : InRange code) (hstop : stop = 0x05 ∨ stop = 0x0b)
    (hfuel : (Binary.instrs code).length < fuel) :
    Reads (block fuel) pos (Binary.instrs code ++ [stop]) rest (code, stop) := by
  -- every call of the reader spends a unit of fuel and a byte
  induction fuel generalizing code stop pos rest with
  | zero => exact absurd hfuel (Nat.not_lt_zero _)
  | succ fuel ih =>
    cases code with
    | nil => exact reads_block_end hstop
    | cons i is =>
      obtain ⟨hi, his⟩ := hr.cons
      by_cases hbranch : ∃ thenCode elseCode, i = .ifElse thenCode elseCode
      · obtain ⟨thenCode, elseCode, rfl⟩ := hbranch
        have hbytes : Binary.instrs (.ifElse thenCode elseCode :: is) ++ [stop] =
            [0x04] ++ ([0x7f] ++ ((Binary.instrs thenCode ++ [0x05]) ++
              ((Binary.instrs elseCode ++ [0x0b]) ++ (Binary.instrs is ++ [stop])))) := by
          simp [Binary.instrs, Binary.instr, Binary.wordType]
        have hlen := congrArg List.length hbytes
        simp only [List.length_append, List.length_singleton] at hlen
        obtain ⟨hthen, helse⟩ := inRange_ifElse hi
        rw [hbytes]
        exact reads_block_branch (ih hthen (.inl rfl) (by omega)) (ih helse (.inr rfl) (by omega))
          (ih his hstop (by omega))
      · simp only [not_exists] at hbranch
        obtain ⟨b, args, hbytes, hb, hread⟩ := reads_plain hbranch hi
        have hlen := instrs_length_cons i is
        rw [Binary.instrs, hbytes, List.append_assoc]
        exact reads_block_plain hb (hread _ _) (ih his hstop (by omega))

theorem reads_expr (hr : InRange code) :
    Reads expr pos (Binary.instrs code ++ [0x0b]) rest code := by
  refine reads_get.then ?_
  have hfuel : (Binary.instrs code).length < (Binary.instrs code ++ [0x0b] ++ rest).length := by
    simp only [List.length_append, List.length_singleton]
    omega
  exact (reads_block hr (.inr rfl) hfuel).finish ((reads_guard rfl).then (reads_pure _))

end

/-! ### items -/

/-- `r` reads the items one after the other -/
inductive ReadsAll (r : Reader α) (rest : Bytes) : Nat → List Bytes → List α → Prop where
  | nil {pos : Nat} : ReadsAll r rest pos [] []
  | cons {pos : Nat} {item : Bytes} {items : List Bytes} {a : α} {as : List α} :
      Reads r pos item (items.flatten ++ rest) a → ReadsAll r rest (pos + item.length) items as →
      ReadsAll r rest pos (item :: items) (a :: as)

theorem ReadsAll.times {r : Reader α} {items : List Bytes} {as : List α}
    (h : ReadsAll r rest pos items as) :
    Reads (times r items.length) pos items.flatten rest as := by
  induction h with
  | nil => exact reads_pure []
  | cons h1 _ ih => exact h1.bind (ih.finish (reads_pure _))

/-- items that are read wherever they are -/
theorem readsAll_map {γ : Type} {r : Reader α} {enc : γ → Bytes} {val : γ → α} {xs : List γ}
    (h : ∀ x ∈ xs, ∀ pos rest, Reads r pos (enc x) rest (val x)) :
    ReadsAll r rest pos (xs.map enc) (xs.map val) := by
  induction xs generalizing pos with
  | nil => exact .nil
  | cons x xs ih =>
    exact .cons (h x List.mem_cons_self _ _) (ih fun y hy => h y (List.mem_cons_of_mem _ hy))

theorem ReadsAll.append {r : Reader α} {items more : List Bytes} {as bs : List α}
    (h : ReadsAll r (more.flatten ++ rest) pos items as)
    (h' : ∀ pos, ReadsAll r rest pos more bs) : ReadsAll r rest pos (items ++ more) (as ++ bs) := by
  induction h with
  | nil => exact h' _
  | cons h1 _ ih =>
    rw [List.cons_append, List.cons_append]
    refine .cons ?_ ih
    rwa [List.flatten_append, List.append_assoc]

theorem length_le_vec {items : List Bytes} {item : Bytes} (h : item ∈ items) :
    item.length ≤ (Binary.vec items).length := by
  rw [Binary.vec, List.length_append]
  have := (List.sublist_flatten_of_mem h).length_le
  omega

/-- an item takes up a byte -/
theorem count_le_vec {items : List Bytes} (h : ∀ item ∈ items, item ≠ []) :
    items.length ≤ (Binary.vec items).length := by
  rw [Binary.vec, List.length_append]
  have hflat : items.length ≤ items.flatten.length := by
    induction items with
    | nil => exact Nat.le_refl _
    | cons item items ih =>
      have hitem := List.length_pos_iff.mpr (h item List.mem_cons_self)
      have hitems := ih fun x hx => h x (List.mem_cons_of_mem _ hx)
      rw [List.flatten_cons, List.length_append, List.length_cons]
      omega
  omega

theorem arity_le_funcType (t : FuncType) : t.arity ≤ (Binary.funcType t).length := by
  have hne : ∀ item ∈ List.replicate t.arity [Binary.wordType], item ≠ [] := by simp
  have hcount := count_le_vec hne
  rw [List.length_replicate] at hcount
  rw [Binary.funcType, List.length_append, List.length_cons]
  omega

theorem ReadsAll.vec {r : Reader α} {items : List Bytes} {as : List α}
    (h : ReadsAll r rest (pos + (Binary.size items.length).length) items as)
    (hn : items.length < 2 ^ 32) : Reads (vec r) pos (Binary.vec items) rest as :=
  (reads_u32 hn).bind h.times

theorem reads_words {n : Nat} (h : n < 2 ^ 32) :
    Reads (vec wordType) pos (Binary.vec (List.replicate n [Binary.wordType])) rest
      (List.replicate n ()) := by
  refine ReadsAll.vec ?_ (by rwa [List.length_replicate])
  have hall : ∀ pos, ReadsAll wordType rest pos
      ((List.replicate n ()).map fun _ => [Binary.wordType]) ((List.replicate n ()).map id) :=
    fun _ => readsAll_map fun _ _ _ _ => reads_token 0x7f
  simp only [List.map_replicate] at hall
  exact hall _

theorem reads_funcType {t : FuncType} (h : (Binary.funcType t).length < 2 ^ 32) :
    Reads funcType pos (Binary.funcType t) rest t := by
  have hn : t.arity < 2 ^ 32 := Nat.lt_of_le_of_lt (arity_le_funcType t) h
  have hbytes : Binary.funcType t = [0x60] ++ (Binary.vec (List.replicate t.arity [Binary.wordType])
      ++ Binary.vec (List.replicate 1 [Binary.wordType])) := rfl
  rw [hbytes]
  refine Reads.bind (reads_token 0x60) ((reads_words hn).bind ?_)
  refine (reads_words (by decide)).finish ((reads_guard rfl).then ?_)
  rw [List.length_replicate]
  exact reads_pure t

theorem reads_importEntry {i : ImportDef} (h : (Binary.importDef i).length < 2 ^ 32)
    (ht : i.typeIndex < 2 ^ 32) :
    Reads importEntry pos (Binary.importDef i) rest ⟨i.module, i.name, i.typeIndex⟩ := by
  rw [Binary.importDef, List.append_assoc] at h ⊢
  simp only [List.length_append] at h
  refine (reads_name (by omega)).bind ((reads_name (by omega)).bind ?_)
  exact Reads.bind (reads_token 0x00) ((reads_u32 ht).finish (reads_pure _))

theorem reads_exportEntry {name : String} {index : Nat} {kind : UInt8} {k : ExportKind}
    (hk : kind = 0x00 ∧ k = .function ∨ kind = 0x02 ∧ k = .memory)
    (h : (Binary.exportDef kind name index).length < 2 ^ 32) (hi : index < 2 ^ 32) :
    Reads exportEntry pos (Binary.exportDef kind name index) rest ⟨name, k, index⟩ := by
  rw [Binary.exportDef] at h ⊢
  simp only [List.length_append] at h
  refine (reads_name (by omega)).bind (Reads.bind (reads_byte kind) ?_)
  rcases hk with ⟨rfl, rfl⟩ | ⟨rfl, rfl⟩
  · exact (reads_u32 hi).finish (reads_pure _)
  · exact (reads_u32 hi).finish (reads_pure _)

theorem reads_locals {n : Nat} (h : n < 2 ^ 32) :
    ∃ groups, Reads (vec localGroup) pos (Binary.locals n) rest groups ∧
      groups.foldl (· + ·) 0 = n := by
  cases n with
  | zero => exact ⟨[], (reads_u32 h).finish (reads_pure []), rfl⟩
  | succ n =>
    have hbytes : Binary.locals (n + 1) =
        Binary.vec [Binary.size (n + 1) ++ [Binary.wordType]] := by
      simp [Binary.locals, Binary.vec]
    have hgroup : ∀ pos, Reads localGroup pos (Binary.size (n + 1) ++ [Binary.wordType]) rest
        (n + 1) := fun pos => (reads_u32 h).bind ((reads_token 0x7f).finish (reads_pure _))
    refine ⟨[n + 1], ?_, Nat.zero_add _⟩
    rw [hbytes]
    exact (ReadsAll.cons (hgroup _) .nil).vec (show 1 < 2 ^ 32 by decide)

theorem reads_bodyEntry {f : FuncDef} (h : (Binary.body f).length < 2 ^ 32) (hr : InRange f.code)
    (hl : f.locals < 2 ^ 32) :
    Reads bodyEntry pos (Binary.sized (Binary.body f)) rest
      ⟨pos + (Binary.size (Binary.body f).length).length, f.locals, f.code⟩ := by
  refine reads_sized ?_ h
  refine reads_get.then ?_
  obtain ⟨groups, hgroups, hsum⟩ := reads_locals hl
  rw [Binary.body, List.append_assoc]
  refine hgroups.bind ?_
  simp only [hsum]
  exact (reads_guard hl).then ((reads_expr hr).finish (reads_pure _))

/-! ### sections -/

/-- the bytes after a number do not count -/
theorem width_unsigned (n : Nat) (rest : Bytes) :
    Leb128.width (Leb128.unsigned n ++ rest) = (Leb128.unsigned n).length := by
  induction n using Leb128.unsigned.induct with
  | case1 n hn =>
    have hbyte : UInt8.ofNat n < 128 := by
      rw [UInt8.lt_iff_toNat_lt, UInt8.toNat_ofNat_of_lt' (Nat.lt_trans hn (by decide))]
      exact hn
    rw [Leb128.unsigned, if_pos hn, List.singleton_append, Leb128.width, if_pos hbyte]
    rfl
  | case2 n hn ih =>
    have hbyte : ¬UInt8.ofNat (n % 128 + 128) < 128 := by
      rw [UInt8.lt_iff_toNat_lt,
        UInt8.toNat_ofNat_of_lt' (Nat.add_lt_add_right (Nat.mod_lt n (by decide)) 128)]
      exact Nat.not_lt.mpr (Nat.le_add_left 128 _)
    rw [Leb128.unsigned, if_neg hn, List.cons_append, Leb128.width, if_neg hbyte, ih,
      List.length_cons]

theorem bodyStarts_cons (pos : Nat) (f : FuncDef) (fs : List FuncDef) :
    Binary.bodyStarts pos (f :: fs) = (pos + (Binary.size (Binary.body f).length).length) ::
      Binary.bodyStarts (pos + (Binary.sized (Binary.body f)).length) fs := by
  have hwidth : Leb128.width (Binary.sized (Binary.body f)) =
      (Binary.size (Binary.body f).length).length := width_unsigned _ _
  rw [Binary.bodyStarts, hwidth]

/-- the bodies of functions of which the first starts at `pos` with its size -/
def bodyEntries (pos : Nat) (fs : List FuncDef) : List BodyEntry :=
  List.zipWith (fun f start => ⟨start, f.locals, f.code⟩) fs (Binary.bodyStarts pos fs)

theorem length_bodyStarts (pos : Nat) (fs : List FuncDef) :
    (Binary.bodyStarts pos fs).length = fs.length := by
  induction fs generalizing pos with
  | nil => rfl
  | cons f fs ih => exact congrArg Nat.succ (ih _)

theorem length_bodyEntries (pos : Nat) (fs : List FuncDef) :
    (bodyEntries pos fs).length = fs.length := by
  rw [bodyEntries, List.length_zipWith, length_bodyStarts, Nat.min_self]

theorem readsAll_bodies {fs : List FuncDef}
    (h : ∀ f ∈ fs, (Binary.body f).length < 2 ^ 32 ∧ InRange f.code ∧ f.locals < 2 ^ 32) :
    ReadsAll bodyEntry rest pos (fs.map fun f => Binary.sized (Binary.body f))
      (bodyEntries pos fs) := by
  induction fs generalizing pos with
  | nil => exact .nil
  | cons f fs ih =>
    obtain ⟨hsize, hr, hl⟩ := h f List.mem_cons_self
    rw [bodyEntries, bodyStarts_cons]
    exact .cons (reads_bodyEntry hsize hr hl) (ih fun g hg => h g (List.mem_cons_of_mem _ hg))

theorem length_le_sectionOf (id : UInt8) (bs : Bytes) :
    bs.length ≤ (Binary.sectionOf id bs).length := by
  rw [Binary.sectionOf, Binary.sized, List.length_cons, List.length_append]
  omega

theorem item_lt {id : UInt8} {items : List Bytes} {item : Bytes}
    (hsize : (Binary.sectionOf id (Binary.vec items)).length < 2 ^ 32) (h : item ∈ items) :
    item.length < 2 ^ 32 :=
  Nat.lt_of_le_of_lt (Nat.le_trans (length_le_vec h) (length_le_sectionOf _ _)) hsize

theorem reads_customs_none {fuel : Nat} (h : rest.head? ≠ some 0x00) :
    Reads (customs fuel) pos [] rest [] := by
  cases fuel with
  | zero => exact reads_pure []
  | succ fuel =>
    rw [customs]
    refine reads_peek.then ?_
    rw [List.nil_append, if_neg h]
    exact reads_pure []

/-- the sizes and items of a section are within the section -/
theorem reads_section {r : Reader α} {id : UInt8} (hid : id ≠ 0x00) {items : List Bytes}
    {as : List α} (hsize : (Binary.sectionOf id (Binary.vec items)).length < 2 ^ 32)
    (hne : ∀ item ∈ items, item ≠ [])
    (h : ReadsAll r [] (pos + 1 + (Binary.size (Binary.vec items).length).length
      + (Binary.size items.length).length) items as) :
    Reads (sectionOf id r) pos (Binary.sectionOf id (Binary.vec items)) rest ([], as) := by
  have hvec : (Binary.vec items).length < 2 ^ 32 :=
    Nat.lt_of_le_of_lt (length_le_sectionOf _ _) hsize
  have hcount := Nat.lt_of_le_of_lt (count_le_vec hne) hvec
  have hhead : (Binary.sectionOf id (Binary.vec items) ++ rest).head? = some id := rfl
  -- there is no custom section before this one, since its first byte is not theirs
  refine reads_get.then ((reads_customs_none ?_).then (reads_peek.then ?_))
  · rw [hhead]
    exact fun h0 => hid (Option.some.inj h0)
  · rw [if_pos hhead]
    exact Reads.bind (reads_token id) ((reads_sized (h.vec hcount) hvec).finish (reads_pure _))

theorem reads_section_none {r : Reader α} {id : UInt8} (h0 : rest.head? ≠ some 0x00)
    (hid : rest.head? ≠ some id) : Reads (sectionOf id r) pos [] rest ([], []) := by
  refine reads_get.then ((reads_customs_none h0).then (reads_peek.then ?_))
  rw [List.nil_append, if_neg hid]
  exact reads_pure _

theorem reads_customEntry_url {url : String}
    (h : (Binary.name "sourceMappingURL" ++ Binary.name url).length < 2 ^ 32) :
    Reads customEntry pos (Binary.sized (Binary.name "sourceMappingURL" ++ Binary.name url)) rest
      (.sourceMappingUrl url) := by
  refine reads_sized ?_ h
  rw [List.length_append] at h
  refine (reads_name (by omega)).bind ?_
  rw [if_pos rfl]
  exact (reads_name (by omega)).finish (reads_pure _)

/-- the last section, if there is one -/
theorem reads_customs_url {url : Option String} {fuel : Nat}
    (h : ((url.map Binary.urlSection).getD []).length < 2 ^ 32)
    (hfuel : ((url.map Binary.urlSection).getD []).length ≤ fuel) :
    Reads (customs fuel) pos ((url.map Binary.urlSection).getD []) []
      (url.map CustomEntry.sourceMappingUrl).toList := by
  cases url with
  | none => exact reads_customs_none (by simp)
  | some url =>
    have hcons : ((some url).map Binary.urlSection).getD [] = [0x00] ++
        Binary.sized (Binary.name "sourceMappingURL" ++ Binary.name url) := rfl
    rw [hcons, List.length_append, List.length_singleton] at h hfuel
    have hpayload : (Binary.name "sourceMappingURL" ++ Binary.name url).length < 2 ^ 32 := by
      rw [Binary.sized, List.length_append] at h
      omega
    obtain ⟨fuel, rfl⟩ := Nat.exists_eq_add_of_le hfuel
    rw [hcons, Nat.add_assoc, Nat.add_comm, customs]
    refine reads_peek.then ?_
    rw [if_pos (by rfl)]
    refine Reads.bind (reads_token 0x00) ((reads_customEntry_url hpayload).finish ?_)
    exact (reads_customs_none (by simp)).then (reads_pure _)

end Decoder

/-! ### modules -/

/-- the numbers in the module are those that the format has -/
structure Module.InRange (m : Module) : Prop where
  imports : ∀ i ∈ m.imports, i.typeIndex < 2 ^ 32
  functions : ∀ f ∈ m.functions, f.typeIndex < 2 ^ 32 ∧ f.locals < 2 ^ 32 ∧ Wasm.InRange f.code

/-- where the first function starts with its size -/
def Module.codeStart (m : Module) : Nat :=
  (Binary.header m ++ 0x0a :: Binary.size (Binary.codePayload m).length).length
    + (Binary.size m.functions.length).length

/-- What a decoder finds in the bytes of a module. -/
def Module.contents (m : Module) (url : Option String) : Decoded where
  types := m.types
  imports := m.imports.map fun i => ⟨i.module, i.name, i.typeIndex⟩
  functions := m.functions.map (·.typeIndex)
  memories := [⟨1, none⟩]
  globals := [⟨true, [.const 0]⟩]
  exports := m.exports.map (fun (index, _, name) => ⟨name, .function, index⟩)
    ++ [⟨memoryName, .memory, 0⟩]
  bodies := Decoder.bodyEntries m.codeStart m.functions
  customs := (url.map CustomEntry.sourceMappingUrl).toList

namespace Decoder

variable {m : Module}

theorem size_ne_nil (n : Nat) : Binary.size n ≠ [] := by
  rw [Binary.size, Leb128.unsigned]
  split <;> simp

theorem reads_typeSection (hsize : (Binary.typeSection m).length < 2 ^ 32) :
    Reads (sectionOf 1 funcType) pos (Binary.typeSection m) rest ([], m.types) := by
  refine reads_section (by decide) hsize ?_ ?_
  · simp [Binary.funcType]
  · have hall : ∀ p, ReadsAll funcType [] p (m.types.map Binary.funcType) (m.types.map id) :=
      fun p => readsAll_map fun t ht pos rest =>
        reads_funcType (item_lt hsize (List.mem_map_of_mem ht))
    rw [List.map_id] at hall
    exact hall _

theorem reads_importSection (hm : m.InRange) (hsize : (Binary.importSection m).length < 2 ^ 32)
    (h0 : rest.head? ≠ some 0x00) (h2 : rest.head? ≠ some 0x02) :
    Reads (sectionOf 2 importEntry) pos (Binary.importSection m) rest
      ([], m.imports.map fun i => ⟨i.module, i.name, i.typeIndex⟩) := by
  unfold Binary.importSection at hsize ⊢
  by_cases hi : m.imports.isEmpty
  · rw [if_pos hi, List.isEmpty_iff.mp hi]
    exact reads_section_none h0 h2
  · rw [if_neg hi] at hsize ⊢
    refine reads_section (by decide) hsize ?_ (readsAll_map fun i hi pos rest => ?_)
    · simp [Binary.importDef]
    · exact reads_importEntry (item_lt hsize (List.mem_map_of_mem hi)) (hm.imports i hi)

theorem reads_functionSection (hm : m.InRange)
    (hsize : (Binary.functionSection m).length < 2 ^ 32) :
    Reads (sectionOf 3 u32) pos (Binary.functionSection m) rest
      ([], m.functions.map (·.typeIndex)) := by
  refine reads_section (by decide) hsize ?_ (readsAll_map fun f hf pos rest => ?_)
  · simp [size_ne_nil]
  · exact reads_u32 (hm.functions f hf).1

theorem reads_memorySection :
    Reads (sectionOf 5 limits) pos Binary.memorySection rest ([], [⟨1, none⟩]) := by
  have hone : Binary.size 1 = [0x01] := size_of_lt (by decide)
  have hlimits : ∀ pos, Reads limits pos ([0x00] ++ Binary.size 1) [] ⟨1, none⟩ := fun _ =>
    Reads.bind (reads_byte 0x00) ((reads_u32 (by decide)).finish (reads_pure _))
  rw [hone] at hlimits
  refine reads_section (by decide) ?_ (by simp) (.cons (hlimits _) .nil)
  simp [Binary.sectionOf, Binary.sized, Binary.vec, size_of_lt]

theorem reads_globalSection :
    Reads (sectionOf 6 globalEntry) pos Binary.globalSection rest ([], [⟨true, [.const 0]⟩]) := by
  have hzero : Leb128.signed 0 = [0x00] := by rw [Leb128.signed]; rfl
  have hinit : Binary.instrs [.const 0] = [0x41, 0x00] := by
    simp [Binary.instrs, Binary.instr, hzero]
  have hrange : InRange [.const 0] := by simp [InRange, Op.ofCode, Op.ofInstr, Op.InRange]
  have hglobal : ∀ pos, Reads globalEntry pos
      ([0x7f] ++ ([0x01] ++ (Binary.instrs [.const 0] ++ [0x0b]))) [] ⟨true, [.const 0]⟩ := fun _ =>
    Reads.bind (reads_token 0x7f) (Reads.bind (reads_byte 0x01)
      ((reads_expr hrange).finish (reads_pure _)))
  rw [hinit] at hglobal
  refine reads_section (by decide) ?_ (by simp) (.cons (hglobal _) .nil)
  simp [Binary.sectionOf, Binary.sized, Binary.vec, size_of_lt]

theorem reads_exportSection (hindex : m.imports.length + m.functions.length < 2 ^ 32)
    (hsize : (Binary.exportSection m).length < 2 ^ 32) :
    Reads (sectionOf 7 exportEntry) pos (Binary.exportSection m) rest
      ([], m.exports.map (fun (index, _, name) => ⟨name, .function, index⟩)
        ++ [⟨memoryName, .memory, 0⟩]) := by
  have hne : ∀ kind name index, Binary.exportDef kind name index ≠ [] := by
    simp [Binary.exportDef]
  refine reads_section (by decide) hsize ?_ (.append (readsAll_map fun e he pos rest => ?_) ?_)
  · intro item hitem
    rcases List.mem_append.mp hitem with hitem | hitem
    · obtain ⟨e, -, rfl⟩ := List.mem_map.mp hitem
      exact hne _ _ _
    · rw [List.mem_singleton.mp hitem]
      exact hne _ _ _
  · have hitem := item_lt hsize (List.mem_append_left _ (List.mem_map_of_mem he))
    have hlt := Nat.lt_trans (Module.index_lt_of_mem_exportsFrom he) hindex
    exact reads_exportEntry (.inl ⟨rfl, rfl⟩) hitem hlt
  · have hitem := item_lt hsize (List.mem_append_right _ List.mem_cons_self)
    exact fun _ => .cons (reads_exportEntry (.inr ⟨rfl, rfl⟩) hitem (by decide)) .nil

theorem reads_codeSection (hm : m.InRange)
    (hsize : (Binary.sectionOf 10 (Binary.codePayload m)).length < 2 ^ 32) :
    Reads (sectionOf 10 bodyEntry) pos (Binary.sectionOf 10 (Binary.codePayload m)) rest
      ([], bodyEntries (pos + 1 + (Binary.size (Binary.codePayload m).length).length
        + (Binary.size m.functions.length).length) m.functions) := by
  refine reads_section (by decide) hsize ?_ ?_
  · simp [Binary.sized, Binary.body]
  · rw [List.length_map]
    refine readsAll_bodies fun f hf => ?_
    have hitem := item_lt hsize (List.mem_map_of_mem hf)
    rw [Binary.sized, List.length_append] at hitem
    exact ⟨by omega, (hm.functions f hf).2.2, (hm.functions f hf).2.1⟩

/-- the bytes of a module, part by part -/
theorem encode_bytes (m : Module) (url : Option String) : (m.encode url).bytes =
    magic ++ (version ++ (Binary.typeSection m ++ (Binary.importSection m ++
      (Binary.functionSection m ++ (Binary.memorySection ++ (Binary.globalSection ++
        (Binary.exportSection m ++ (Binary.sectionOf 10 (Binary.codePayload m) ++
          (url.map Binary.urlSection).getD [])))))))) := by
  have hmagic : Binary.magic = magic ++ version := rfl
  simp [Module.encode, Binary.header, hmagic, Binary.sectionOf, Binary.sized]

theorem count_le_section {id : UInt8} {γ : Type} {enc : γ → Bytes} {xs : List γ}
    (hne : ∀ x, enc x ≠ []) :
    xs.length ≤ (Binary.sectionOf id (Binary.vec (xs.map enc))).length := by
  have hitems : ∀ item ∈ xs.map enc, item ≠ [] := by
    intro item hitem
    obtain ⟨x, -, rfl⟩ := List.mem_map.mp hitem
    exact hne x
  have hcount := count_le_vec hitems
  rw [List.length_map] at hcount
  exact Nat.le_trans hcount (length_le_sectionOf _ _)

theorem types_le_section (m : Module) : m.types.length ≤ (Binary.typeSection m).length :=
  count_le_section (by simp [Binary.funcType])

theorem functions_le_section (m : Module) :
    m.functions.length ≤ (Binary.functionSection m).length :=
  count_le_section fun f => size_ne_nil f.typeIndex

theorem imports_le_section (m : Module) : m.imports.length ≤ (Binary.importSection m).length := by
  unfold Binary.importSection
  by_cases hi : m.imports.isEmpty
  · rw [List.isEmpty_iff.mp hi]
    exact Nat.zero_le _
  · rw [if_neg hi]
    exact count_le_section (by simp [Binary.importDef])

theorem codeStart_eq (m : Module) : m.codeStart =
    0 + magic.length + version.length + (Binary.typeSection m).length
      + (Binary.importSection m).length + (Binary.functionSection m).length
      + Binary.memorySection.length + Binary.globalSection.length
      + (Binary.exportSection m).length + 1 + (Binary.size (Binary.codePayload m).length).length
      + (Binary.size m.functions.length).length := by
  have hmagic : Binary.magic = magic ++ version := rfl
  simp only [Module.codeStart, Binary.header, hmagic, List.length_append, List.length_cons]
  omega

theorem reads_module (hm : m.InRange) {url : Option String}
    (hsize : (m.encode url).bytes.length < 2 ^ 32) :
    Reads module 0 (m.encode url).bytes [] (m.contents url) := by
  have hlen := hsize
  rw [encode_bytes] at hlen ⊢
  simp only [List.length_append] at hlen
  have hindex : m.imports.length + m.functions.length < 2 ^ 32 := by
    have := functions_le_section m
    have := imports_le_section m
    omega
  refine Reads.bind (reads_take magic) ((reads_guard rfl).then ?_)
  refine Reads.bind (reads_take version) ((reads_guard rfl).then ?_)
  refine (reads_typeSection (by omega)).bind ?_
  refine (reads_importSection hm (by omega) (by simp [Binary.functionSection, Binary.sectionOf])
    (by simp [Binary.functionSection, Binary.sectionOf])).bind ?_
  refine (reads_functionSection hm (by omega)).bind ?_
  refine reads_memorySection.bind (reads_globalSection.bind ?_)
  refine (reads_exportSection hindex (by omega)).bind ?_
  refine (reads_codeSection hm (by omega)).bind ?_
  refine reads_get.then ((reads_customs_url (by omega) (by simp)).finish ?_)
  refine (reads_guard ?_).then ?_
  · rw [List.length_map, length_bodyEntries]
  · rw [Module.contents, codeStart_eq]
    exact reads_pure _

end Decoder

theorem Module.decode_encode_contents {m : Module} (hm : m.InRange) {url : Option String}
    (hsize : (m.encode url).bytes.length < 2 ^ 32) :
    decode (m.encode url).bytes = some (m.contents url) := by
  have h : Decoder.module ⟨0, (m.encode url).bytes ++ []⟩ = _ := Decoder.reads_module hm hsize
  rw [List.append_nil] at h
  rw [decode, h]

end AnfWasm.Wasm
