import AnfWasm.Proofs.SourceMap.Decoder
import Mathlib.Algebra.Group.Nat.Defs

/-!
# Numbers delimit themselves

The numbers of a segment are written with nothing between them.  A word of 64 bits that has become
negative when its sign was moved into the lowest bit is never used up.

* `write_ofInt`         numbers below `2 ^ 62` in size are written as `Vlq.encode` has them, in at
                        most 13 rounds;
* `write_eq_none`       and for larger ones no number of rounds is enough;
* `digits_encodeNat`    only the last digit says that no other follows;
* `decodeAll_flatMap`   numbers that are written one behind the other are read as these numbers.
-/

namespace AnfWasm.Vlq

/-! ### words -/

section
variable {n : Nat}

theorem toNat_and (h : n < 2 ^ 63) : (Int64.ofNat n &&& 31).toUInt64.toNat = n % 32 := by
  have hn : (Int64.ofNat n).toUInt64.toNat = n :=
    UInt64.toNat_ofNat_of_lt' (Nat.lt_trans h (by decide))
  rw [Int64.toUInt64_and, UInt64.toNat_and, hn]
  exact Nat.and_two_pow_sub_one_eq_mod n 5

theorem toNat_and_or (h : n < 2 ^ 63) :
    (Int64.ofNat n &&& 31 ||| 32).toUInt64.toNat = n % 32 + 32 := by
  have hlt : n % 32 < 2 ^ 5 := Nat.mod_lt n (by decide)
  rw [Int64.toUInt64_or, UInt64.toNat_or, toNat_and h, Nat.or_comm, Nat.add_comm]
  exact (Nat.two_pow_add_eq_or_of_lt hlt 1).symm

theorem toInt_shiftRight (r : Int64) : (r >>> 5).toInt = r.toInt / 32 := by
  rw [← Int64.toInt_toBitVec, Int64.toBitVec_shiftRight]
  show (r.toBitVec.sshiftRight 5).toInt = _
  rw [BitVec.toInt_sshiftRight, Int64.toInt_toBitVec, Int.shiftRight_eq_div_pow]
  rfl

theorem shiftRight_ofNat (h : n < 2 ^ 63) : Int64.ofNat n >>> 5 = .ofNat (n / 32) := by
  apply Int64.toInt_inj.mp
  rw [toInt_shiftRight, Int64.toInt_ofNat_of_lt h, Int64.toInt_ofNat_of_lt (by omega)]
  rfl

theorem ofNat_eq_zero (h : n < 2 ^ 63) : Int64.ofNat n = 0 ↔ n = 0 := by
  rw [← Int64.toInt_inj, Int64.toInt_ofNat_of_lt h]
  exact Int.natCast_eq_zero

theorem ofNat_pos (h : n < 2 ^ 63) : 0 < Int64.ofNat n ↔ 0 < n := by
  rw [Int64.lt_iff_toInt_lt, Int64.toInt_ofNat_of_lt h]
  exact Int.natCast_pos

theorem shiftLeft_ofNat (n : Nat) : Int64.ofNat n <<< 1 = .ofNat (2 * n) := by
  apply Int64.toBitVec_inj.mp
  rw [Int64.toBitVec_shiftLeft]
  show BitVec.ofNat 64 n <<< 1 = BitVec.ofNat 64 (2 * n)
  apply BitVec.eq_of_toNat_eq
  rw [BitVec.toNat_shiftLeft, BitVec.toNat_ofNat, BitVec.toNat_ofNat, Nat.shiftLeft_eq]
  omega

theorem or_one_ofNat (n : Nat) : Int64.ofNat (2 * n) ||| 1 = .ofNat (2 * n + 1) := by
  apply Int64.toBitVec_inj.mp
  rw [Int64.toBitVec_or]
  show BitVec.ofNat 64 (2 * n) ||| 1#64 = BitVec.ofNat 64 (2 * n + 1)
  apply BitVec.eq_of_toNat_eq
  rw [BitVec.toNat_or, BitVec.toNat_ofNat, BitVec.toNat_ofNat, BitVec.toNat_ofNat]
  have heven : 2 * n % 2 ^ 64 = 2 ^ 1 * (n % 2 ^ 63) := by omega
  have hone : 1 % 2 ^ 64 = 1 := by decide
  rw [heven, hone, ← Nat.two_pow_add_eq_or_of_lt (by decide)]
  omega

end

/-! ### writing in words -/

section
variable {n rounds : Nat}

theorem writeWord_last (hn : n < 32) (out : List Char) :
    writeWord (rounds + 1) out (.ofNat n) = some (out ++ [digit n]) := by
  have h : n < 2 ^ 63 := by omega
  have hnone : n / 32 = 0 := Nat.div_eq_of_lt hn
  have hstop : Int64.ofNat 0 = 0 := rfl
  rw [writeWord, shiftRight_ofNat h, hnone, hstop, if_pos rfl, if_neg (by decide), toNat_and h,
    Nat.mod_eq_of_lt hn]

theorem writeWord_more (hn : ¬n < 32) (h : n < 2 ^ 63) (out : List Char) :
    writeWord (rounds + 1) out (.ofNat n) =
      writeWord rounds (out ++ [digit (n % 32 + 32)]) (.ofNat (n / 32)) := by
  have hless : n / 32 < 2 ^ 63 := by omega
  have hmore : 0 < Int64.ofNat (n / 32) := by
    rw [ofNat_pos hless]
    omega
  have hgo : ¬Int64.ofNat (n / 32) = 0 := by
    rw [ofNat_eq_zero hless]
    omega
  rw [writeWord, shiftRight_ofNat h, if_neg hgo, if_pos hmore, toNat_and_or h]

/-- one round for each digit to the base 32 -/
theorem writeWord_ofNat (h : n < 2 ^ 63) (hn : n < 32 ^ (rounds + 1)) (out : List Char) :
    writeWord (rounds + 1) out (.ofNat n) = some (out ++ encodeNat n) := by
  induction rounds generalizing n out with
  | zero =>
    have hlast : n < 32 := hn
    rw [writeWord_last hlast, encodeNat, if_pos hlast]
  | succ rounds ih =>
    rw [encodeNat]
    by_cases hlast : n < 32
    · rw [writeWord_last hlast, if_pos hlast]
    · have hless : n / 32 < 32 ^ (rounds + 1) := Nat.div_lt_of_lt_mul (Nat.mul_comm _ _ ▸ hn)
      rw [writeWord_more hlast h, if_neg hlast, ih (by omega) hless, List.append_assoc]
      rfl

end

/-- The shift keeps a negative word negative, so it never becomes zero. -/
theorem writeWord_neg {rest : Int64} (h : rest < 0) (rounds : Nat) (out : List Char) :
    writeWord rounds out rest = none := by
  induction rounds generalizing out rest with
  | zero => rfl
  | succ rounds ih =>
    have hmore : rest >>> 5 < 0 := by
      rw [Int64.lt_iff_toInt_lt, toInt_shiftRight]
      exact Int.ediv_neg_of_neg_of_pos (Int64.lt_iff_toInt_lt.mp h) (by decide)
    have hgo : ¬rest >>> 5 = 0 := by
      intro hzero
      rw [hzero] at hmore
      exact absurd hmore (by decide)
    rw [writeWord, if_neg hgo]
    exact ih hmore _

theorem zigzag64_ofInt {v : Int} (h : v.natAbs < 2 ^ 63) :
    zigzag64 (.ofInt v) = .ofNat (zigzag v) := by
  have hword : (Int64.ofInt v).toInt = v := Int64.toInt_ofInt_of_le (by omega) (by omega)
  unfold zigzag64
  cases v with
  | ofNat n =>
    have hpos : ¬Int64.ofInt (.ofNat n) < 0 := by
      rw [Int64.lt_iff_toInt_lt, hword]
      exact Int.not_lt.mpr (Int.natCast_nonneg n)
    rw [if_neg hpos]
    exact shiftLeft_ofNat n
  | negSucc n =>
    have hneg : Int64.ofInt (.negSucc n) < 0 := by
      rw [Int64.lt_iff_toInt_lt, hword]
      exact Int.negSucc_lt_zero n
    rw [if_pos hneg, Int64.neg_ofInt]
    show Int64.ofNat (n + 1) <<< 1 ||| 1 = .ofNat (2 * (n + 1) + 1)
    rw [shiftLeft_ofNat, or_one_ofNat]

theorem zigzag_natAbs (v : Int) : zigzag v = 2 * v.natAbs ∨ zigzag v = 2 * v.natAbs + 1 := by
  cases v with
  | ofNat n => exact .inl rfl
  | negSucc n => exact .inr rfl

theorem write_ofInt {v : Int} (h : v.natAbs < 2 ^ 62) {rounds : Nat} (hrounds : 13 ≤ rounds)
    (out : List Char) : write rounds out (.ofInt v) = some (out ++ encode v) := by
  have hzigzag := zigzag_natAbs v
  have hword : zigzag v < 2 ^ 63 := by omega
  obtain ⟨k, rfl⟩ := Nat.exists_eq_add_of_le' hrounds
  have hpow : 32 ^ 13 ≤ 32 ^ (k + 12 + 1) := Nat.pow_le_pow_right (by decide) (by omega)
  have henough : zigzag v < 32 ^ (k + 12 + 1) := by omega
  rw [write, zigzag64_ofInt (by omega)]
  exact writeWord_ofNat hword henough out

theorem write_eq_none {v : Int} (h : 2 ^ 62 ≤ v.natAbs) (hword : v.natAbs < 2 ^ 63) (rounds : Nat)
    (out : List Char) : write rounds out (.ofInt v) = none := by
  have hzigzag := zigzag_natAbs v
  rw [write, zigzag64_ofInt hword]
  refine writeWord_neg ?_ rounds out
  -- the highest bit is taken for the sign
  rw [Int64.lt_iff_toInt_lt, Int64.toInt_ofNat', Int64.size, Int.bmod_def]
  show _ < (0 : Int)
  omega

/-- No operation on the way to the digits leaves the range of the words. -/
structure Exact (v : Int) : Prop where
  word : (Int64.ofInt v).toInt = v
  neg : (-Int64.ofInt v).toInt = -v
  zigzag : (zigzag64 (.ofInt v)).toInt = zigzag v

theorem exact_of_natAbs {v : Int} (h : v.natAbs < 2 ^ 62) : Exact v := by
  have hzigzag := zigzag_natAbs v
  refine ⟨Int64.toInt_ofInt_of_le (by omega) (by omega), ?_, ?_⟩
  · rw [Int64.neg_ofInt, Int64.toInt_ofInt_of_le (by omega) (by omega)]
  · rw [zigzag64_ofInt (by omega), Int64.toInt_ofNat_of_lt (by omega)]

/-! ### digits -/

/-- Digits in base 64, of which the last one and no other has no continuation bit, and which are
read as the number whatever follows them. -/
structure Delimits (v : Int) (text : List Char) : Prop where
  digits : ∃ ns n, text.map value? = (ns ++ [n]).map some ∧ (∀ k ∈ ns, k.testBit 5 = true) ∧
    n.testBit 5 = false
  reads : ∀ rest, decode (text ++ rest) = some (v, rest)

theorem digits_encodeNat (n : Nat) :
    ∃ ns k, (encodeNat n).map value? = (ns ++ [k]).map some ∧ (∀ i ∈ ns, i.testBit 5 = true) ∧
      k.testBit 5 = false := by
  induction n using encodeNat.induct with
  | case1 n hn =>
    refine ⟨[], n, ?_, fun i hi => absurd hi List.not_mem_nil, Nat.testBit_lt_two_pow hn⟩
    rw [encodeNat, if_pos hn, List.map_singleton, value?_digit (Nat.lt_trans hn (by decide))]
    rfl
  | case2 n hn ih =>
    obtain ⟨ns, k, htext, hns, hk⟩ := ih
    have hlt : n % 32 < 32 := Nat.mod_lt n (by decide)
    have hbit : (n % 32 + 32).testBit 5 = true := by
      rw [Nat.testBit_eq_decide_div_mod_eq, decide_eq_true_iff]
      omega
    refine ⟨(n % 32 + 32) :: ns, k, ?_, List.forall_mem_cons.mpr ⟨hbit, hns⟩, hk⟩
    rw [encodeNat, if_neg hn, List.map_cons, htext, value?_digit (by omega)]
    rfl

theorem delimits_encode (v : Int) : Delimits v (encode v) :=
  ⟨digits_encodeNat (zigzag v), decode_encode v⟩

/-! ### one behind the other -/

theorem length_decodeNat {cs rest : List Char} {n : Nat} (h : decodeNat cs = some (n, rest)) :
    rest.length < cs.length := by
  induction cs generalizing n rest with
  | nil => exact absurd h (by simp [decodeNat])
  | cons c cs ih =>
    obtain ⟨v, hv, hrest⟩ := Option.bind_eq_some_iff.mp h
    by_cases hlast : v < 32
    · rw [if_pos hlast] at hrest
      obtain ⟨-, rfl⟩ := Prod.mk.inj (Option.some.inj hrest)
      exact Nat.lt_succ_self _
    · rw [if_neg hlast] at hrest
      obtain ⟨⟨k, rest'⟩, hk, hrest⟩ := Option.bind_eq_some_iff.mp hrest
      obtain ⟨-, rfl⟩ := Prod.mk.inj (Option.some.inj hrest)
      exact Nat.lt_succ_of_lt (ih hk)

theorem length_decode {cs rest : List Char} {v : Int} (h : decode cs = some (v, rest)) :
    rest.length < cs.length := by
  obtain ⟨⟨n, rest'⟩, hn, heq⟩ := Option.map_eq_some_iff.mp h
  obtain ⟨-, rfl⟩ := Prod.mk.inj heq
  exact length_decodeNat hn

/-- the numbers of a text, up to its end -/
def decodeAll (cs : List Char) : Option (List Int) :=
  if cs = [] then some []
  else
    match _hread : decode cs with
    | none => none
    | some (v, rest) => (decodeAll rest).map (v :: ·)
termination_by cs.length
decreasing_by exact length_decode _hread

theorem decodeAll_encode (v : Int) (rest : List Char) :
    decodeAll (encode v ++ rest) = (decodeAll rest).map (v :: ·) := by
  have hread := decode_encode v rest
  have hsome : encode v ++ rest ≠ [] := by
    intro hnil
    have hlen := length_decode hread
    rw [hnil] at hlen
    exact Nat.not_lt_zero _ hlen
  rw [decodeAll, if_neg hsome]
  split
  · rename_i hnone
    exact absurd (hread.symm.trans hnone) (by simp)
  · rename_i v' rest' hsome
    obtain ⟨rfl, rfl⟩ := Prod.mk.inj (Option.some.inj (hread.symm.trans hsome))
    rfl

theorem decodeAll_flatMap (vs : List Int) : decodeAll (vs.flatMap encode) = some vs := by
  induction vs with
  | nil =>
    rw [List.flatMap_nil, decodeAll]
    rfl
  | cons v vs ih =>
    rw [List.flatMap_cons, decodeAll_encode, ih]
    rfl

theorem foldlM_write {vs : List Int} (h : ∀ v ∈ vs, v.natAbs < 2 ^ 62) {rounds : Nat}
    (hrounds : 13 ≤ rounds) (out : List Char) :
    (vs.map Int64.ofInt).foldlM (write rounds) out = some (out ++ vs.flatMap encode) := by
  induction vs generalizing out with
  | nil =>
    rw [List.flatMap_nil, List.append_nil]
    rfl
  | cons v vs ih =>
    obtain ⟨hv, hvs⟩ := List.forall_mem_cons.mp h
    rw [List.map_cons, List.foldlM_cons, write_ofInt hv hrounds, List.flatMap_cons,
      ← List.append_assoc]
    exact ih hvs _

/-- **Numbers delimit themselves.**  Writing ends for each of these numbers, without an overflow,
and puts digits behind a text from which the number is read again.  When they are written one behind
the other, what was written is read as these numbers.  The bound is sharp: writing does not end for
a number at or above it. -/
theorem write_delimits {vs : List Int} (h : ∀ v ∈ vs, v.natAbs < 2 ^ 62) (out : List Char) :
    (∀ v ∈ vs, Exact v ∧ Delimits v (encode v) ∧
      ∀ rounds ≥ 13, write rounds out (.ofInt v) = some (out ++ encode v)) ∧
    (∀ rounds ≥ 13,
      (vs.map Int64.ofInt).foldlM (write rounds) out = some (out ++ vs.flatMap encode)) ∧
    decodeAll (vs.flatMap encode) = some vs ∧
    ∀ v : Int, 2 ^ 62 ≤ v.natAbs → v.natAbs < 2 ^ 63 →
      ∀ rounds, write rounds out (.ofInt v) = none := by
  refine ⟨fun v hv => ⟨exact_of_natAbs (h v hv), delimits_encode v, ?_⟩, ?_, ?_, ?_⟩
  · exact fun rounds hrounds => write_ofInt (h v hv) hrounds out
  · exact fun rounds hrounds => foldlM_write h hrounds out
  · exact decodeAll_flatMap vs
  · exact fun v hlarge hword rounds => write_eq_none hlarge hword rounds out

/-- small numbers between the largest and the smallest that can be written -/
def extremes : List Int := [4611686018427387903, 0, -1, 16, -4611686018427387903]

theorem write_delimits_extremes : (∀ v ∈ extremes, v.natAbs < 2 ^ 62) ∧
    (extremes.map Int64.ofInt).foldlM (write 13) [','] = some (',' :: extremes.flatMap encode) ∧
    decodeAll (extremes.flatMap encode) = some extremes := by
  have h : ∀ v ∈ extremes, v.natAbs < 2 ^ 62 := by decide
  obtain ⟨-, hwrite, hread, -⟩ := write_delimits h [',']
  exact ⟨h, hwrite 13 (Nat.le_refl 13), hread⟩

end AnfWasm.Vlq
