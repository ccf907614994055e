import AnfWasm.Json.Printer
import AnfWasm.Json.Reader
import Mathlib.Data.List.Forall2
import Mathlib.Data.List.TakeDrop

/-!
# Compact text reads back

The reader undoes the printer: `parse_compact`.

Each reader is run on what the printer writes and any text after it, so that the readers of lists
and objects can go on with that text.  It matters only after a number what follows
(`EndsNumber`).  A string is read in pieces, one for each character (`Spells`), since a control
character may be written by its number.
-/

namespace AnfWasm.Json

theorem ok_bind {ε α β : Type} (a : α) (f : α → Except ε β) : (Except.ok a >>= f) = f a := rfl

/-! ### numbers -/

/-- nothing of a number stands first -/
def EndsNumber (cs : List Char) : Prop :=
  ∀ c ∈ cs.head?, c.isDigit = false ∧ c ≠ '.' ∧ c ≠ 'e' ∧ c ≠ 'E'

theorem takeDigits_append {ds rest : List Char} (hd : ∀ c ∈ ds, c.isDigit = true)
    (hr : EndsNumber rest) : takeDigits (ds ++ rest) = (ds, rest) := by
  rw [takeDigits, List.span_eq_takeWhile_dropWhile, List.takeWhile_append_of_pos hd,
    List.dropWhile_append_of_pos hd]
  cases rest with
  | nil => simp
  | cons c cs =>
    have hc : c.isDigit = false := (hr c rfl).1
    rw [List.takeWhile_cons_of_neg (by simp [hc]), List.dropWhile_cons_of_neg (by simp [hc]),
      List.append_nil]

theorem digitChar_ne_zero : ∀ d < 10, 0 < d → Nat.digitChar d ≠ '0' := by decide

/-- no zero stands before another digit -/
theorem toDigits_eq_cons {n : Nat} (h : 0 < n) :
    ∃ d ds, Nat.toDigits 10 n = d :: ds ∧ d ≠ '0' := by
  induction n using Nat.strongRecOn with
  | ind n ih =>
    by_cases hn : n < 10
    · exact ⟨Nat.digitChar n, [], Nat.toDigits_of_lt_base hn, digitChar_ne_zero n hn h⟩
    · obtain ⟨d, ds, he, hd⟩ := ih (n / 10) (by omega) (by omega)
      refine ⟨d, ds ++ [Nat.digitChar (n % 10)], ?_, hd⟩
      rw [Nat.toDigits_of_base_le (by decide) (by omega), he]
      rfl

theorem scanWhole_toDigits (n : Nat) {rest : List Char} (hr : EndsNumber rest) :
    scanWhole (Nat.toDigits 10 n ++ rest) = .ok (Nat.toDigits 10 n, rest) := by
  rcases Nat.eq_zero_or_pos n with rfl | hn
  · rw [Nat.toDigits_zero]
    have hnot : rest.head?.any Char.isDigit = false := by
      cases rest with
      | nil => rfl
      | cons c cs => exact (hr c rfl).1
    show (if rest.head?.any Char.isDigit then _ else _) = _
    rw [hnot]
    rfl
  · have hd : ∀ c ∈ Nat.toDigits 10 n, c.isDigit = true := fun c hc =>
      Nat.isDigit_of_mem_toDigits (by decide) (by decide) hc
    have hscan : scanDigits (Nat.toDigits 10 n ++ rest) = .ok (Nat.toDigits 10 n, rest) := by
      rw [scanDigits, takeDigits_append hd hr]
      split
      · rename_i heq
        exact absurd (Prod.mk.inj heq).1 Nat.toDigits_ne_nil
      · rfl
    obtain ⟨d, ds, he, hne⟩ := toDigits_eq_cons hn
    rw [← hscan, he]
    unfold scanWhole
    split
    · rename_i heq
      exact absurd (List.cons.inj heq).1 hne
    · rfl

theorem scanFraction_none {rest : List Char} (hr : EndsNumber rest) :
    scanFraction rest = .ok (false, rest) := by
  unfold scanFraction
  split
  · exact absurd rfl (hr '.' rfl).2.1
  · rfl

theorem scanExponent_none {rest : List Char} (hr : EndsNumber rest) :
    scanExponent rest = .ok (false, rest) := by
  cases rest with
  | nil => rfl
  | cons c cs =>
    obtain ⟨-, -, he, hE⟩ := hr c rfl
    exact if_neg (not_or.mpr ⟨he, hE⟩)

theorem scanNumber_toDigits (negative : Bool) (n : Nat) {rest : List Char} (hr : EndsNumber rest) :
    scanNumber negative (Nat.toDigits 10 n ++ rest) =
      .ok (if negative then if n = 0 then .other else .int (-(n : Int)) else .int n, rest) := by
  unfold scanNumber
  simp only [scanWhole_toDigits n hr, scanFraction_none hr, scanExponent_none hr, ok_bind,
    Nat.ofDigitChars_ten_toDigits]
  cases negative with
  | false => rfl
  | true => by_cases h0 : n = 0 <;> simp [h0] <;> rfl

/-! ### strings -/

/-- The piece that the reader makes of an escaped character. -/
inductive Spells : Piece → Char → Prop where
  | char (c : Char) : Spells (.char c) c
  | unit (c : Char) : c.toNat < 0x20 → Spells (.unit c.toNat) c

theorem joinPieces_unit {n : Nat} (h : n < 0x20) (ps : List Piece) :
    joinPieces (.unit n :: ps) = (Char.ofNat n :: ·) <$> joinPieces ps := by
  have hhigh : isHighHalf n = false := by simp [isHighHalf]; omega
  have hlow : isLowHalf n = false := by simp [isLowHalf]; omega
  cases ps with
  | nil => simp [joinPieces, hhigh, hlow]
  | cons p ps => cases p <;> simp [joinPieces, hhigh, hlow]

theorem joinPieces_of_spells {ps : List Piece} {cs : List Char} (h : List.Forall₂ Spells ps cs) :
    joinPieces ps = some cs := by
  induction h with
  | nil => rfl
  | @cons p c ps cs hp _ ih =>
    cases hp with
    | char =>
      rw [joinPieces, ih]
      rfl
    | unit _ hc =>
      rw [joinPieces_unit hc, ih, Char.ofNat_toNat]
      rfl

section
variable {cs rest : List Char} {ps : List Piece}

theorem scanString_short {c e : Char} (he : unescape? c = some e)
    (h : scanString cs = .ok (ps, rest)) :
    scanString ('\\' :: c :: cs) = .ok (.char e :: ps, rest) := by
  have hu : c ≠ 'u' := by
    rintro rfl
    exact absurd he (by simp [unescape?])
  rw [scanString]
  · rw [he, h]
    rfl
  · rintro a b c' d cs' rfl
    exact fun _ => hu rfl

theorem scanString_unit {a b c d : Char} {n : Nat} (hn : unit? a b c d = some n)
    (h : scanString cs = .ok (ps, rest)) :
    scanString ('\\' :: 'u' :: a :: b :: c :: d :: cs) = .ok (.unit n :: ps, rest) := by
  rw [scanString, hn, h]
  rfl

theorem scanString_plain {c : Char} (hq : c ≠ '"') (hb : c ≠ '\\') (hc : ¬c.toNat < 0x20)
    (h : scanString cs = .ok (ps, rest)) : scanString (c :: cs) = .ok (.char c :: ps, rest) := by
  rw [scanString]
  · rw [if_neg hb, if_neg hc, h]
    rfl
  · exact hq
  · exact fun _ _ _ _ _ hc' _ => hb hc'
  · exact fun _ _ hc' _ => hb hc'

end

theorem unit?_hexDigits :
    ∀ n < 0x20, unit? '0' '0' (hexDigit (n / 16)) (hexDigit n) = some n := by
  decide

/-- The three forms of a character in a string. -/
theorem escapeChar_cases (c : Char) :
    (∃ e, escapeChar c = ['\\', e] ∧ unescape? e = some c) ∨
      (c.toNat < 0x20 ∧
        escapeChar c = ['\\', 'u', '0', '0', hexDigit (c.toNat / 16), hexDigit c.toNat]) ∨
      (c ≠ '"' ∧ c ≠ '\\' ∧ ¬c.toNat < 0x20 ∧ escapeChar c = [c]) := by
  by_cases hq : c = '"'
  · subst hq
    exact .inl ⟨'"', rfl, rfl⟩
  by_cases hb : c = '\\'
  · subst hb
    exact .inl ⟨'\\', rfl, rfl⟩
  by_cases hx : c = '\x08'
  · subst hx
    exact .inl ⟨'b', rfl, rfl⟩
  by_cases ht : c = '\t'
  · subst ht
    exact .inl ⟨'t', rfl, rfl⟩
  by_cases hn : c = '\n'
  · subst hn
    exact .inl ⟨'n', rfl, rfl⟩
  by_cases hf : c = '\x0c'
  · subst hf
    exact .inl ⟨'f', rfl, rfl⟩
  by_cases hr : c = '\r'
  · subst hr
    exact .inl ⟨'r', rfl, rfl⟩
  have hrest : escapeChar c = if c.toNat < 0x20 then
      ['\\', 'u', '0', '0', hexDigit (c.toNat / 16), hexDigit c.toNat] else [c] := by
    rw [escapeChar, if_neg hq, if_neg hb, if_neg hx, if_neg ht, if_neg hn, if_neg hf, if_neg hr]
  by_cases hc : c.toNat < 0x20
  · exact .inr (.inl ⟨hc, hrest.trans (if_pos hc)⟩)
  · exact .inr (.inr ⟨hq, hb, hc, hrest.trans (if_neg hc)⟩)

/-- An escaped character is read as one piece, whatever follows it. -/
theorem scanString_escapeChar (c : Char) : ∃ p, Spells p c ∧ ∀ cs ps rest,
    scanString cs = .ok (ps, rest) → scanString (escapeChar c ++ cs) = .ok (p :: ps, rest) := by
  rcases escapeChar_cases c with ⟨e, he, hun⟩ | ⟨hc, he⟩ | ⟨hq, hb, hc, he⟩
  · refine ⟨.char c, .char c, fun cs ps rest h => ?_⟩
    rw [he]
    exact scanString_short hun h
  · refine ⟨.unit c.toNat, .unit c hc, fun cs ps rest h => ?_⟩
    rw [he]
    exact scanString_unit (unit?_hexDigits c.toNat hc) h
  · refine ⟨.char c, .char c, fun cs ps rest h => ?_⟩
    rw [he]
    exact scanString_plain hq hb hc h

theorem scanString_escaped (cs rest : List Char) : ∃ ps, List.Forall₂ Spells ps cs ∧
    scanString (cs.flatMap escapeChar ++ '"' :: rest) = .ok (ps, rest) := by
  induction cs with
  | nil => exact ⟨[], .nil, by rfl⟩
  | cons c cs ih =>
    obtain ⟨p, hp, hscan⟩ := scanString_escapeChar c
    obtain ⟨ps, hps, hrest⟩ := ih
    refine ⟨p :: ps, .cons hp hps, ?_⟩
    rw [List.flatMap_cons, List.append_assoc]
    exact hscan _ _ _ hrest

/-- A string is read back after its opening quote. -/
theorem scanString_chars (s : String) (rest : List Char) : ∃ ps, text? ps = some s ∧
    scanString (s.toList.flatMap escapeChar ++ '"' :: rest) = .ok (ps, rest) := by
  obtain ⟨ps, hps, hscan⟩ := scanString_escaped s.toList rest
  refine ⟨ps, ?_, hscan⟩
  rw [text?, joinPieces_of_spells hps]
  exact congrArg some String.ofList_toList

theorem stringChars_append (s : String) (rest : List Char) :
    stringChars s ++ rest = '"' :: (s.toList.flatMap escapeChar ++ '"' :: rest) := by
  simp [stringChars]

/-! ### values -/

theorem endsNumber_cons {c : Char} (hd : c.isDigit = false) (h : c ≠ '.' ∧ c ≠ 'e' ∧ c ≠ 'E')
    (cs : List Char) : EndsNumber (c :: cs) := by
  intro c' hc'
  obtain rfl : c = c' := Option.some.inj hc'
  exact ⟨hd, h⟩

/-- the first character of a value -/
def Opens (c : Char) : Prop := isBlank c = false ∧ c ≠ ']'

theorem opens_of_isDigit {c : Char} (h : c.isDigit = true) : Opens c := by
  refine ⟨?_, ?_⟩
  · unfold isBlank
    simp only [Bool.or_eq_false_iff, decide_eq_false_iff_not]
    refine ⟨⟨⟨?_, ?_⟩, ?_⟩, ?_⟩ <;> rintro rfl <;> exact absurd h (by decide)
  · rintro rfl
    exact absurd h (by decide)

theorem chars_eq_cons (j : Json) : ∃ c cs, j.chars = c :: cs ∧ Opens c := by
  match j with
  | .int (.ofNat n) =>
    obtain ⟨d, ds, h⟩ := List.exists_cons_of_ne_nil (Nat.toDigits_ne_nil (n := n) (b := 10))
    refine ⟨d, ds, h, opens_of_isDigit ?_⟩
    exact Nat.isDigit_of_mem_toDigits (by decide) (by decide) (h ▸ List.mem_cons_self)
  | .null | .bool true | .bool false | .int (.negSucc _) | .str _ | .arr _ | .obj _ | .other =>
    exact ⟨_, _, rfl, by decide, by decide⟩

theorem length_chars_pos (j : Json) : 0 < j.chars.length := by
  obtain ⟨c, cs, h, -⟩ := chars_eq_cons j
  rw [h]
  exact Nat.succ_pos _

theorem itemChars_more (j j' : Json) (js : List Json) :
    itemChars (j :: j' :: js) = j.chars ++ ',' :: itemChars (j' :: js) := rfl

theorem fieldChars_last (k : String) (j : Json) :
    fieldChars [(k, j)] = stringChars k ++ ':' :: (j.chars ++ ['\x7d']) := by
  rw [fieldChars, List.append_assoc]
  rfl

theorem fieldChars_more (k : String) (j : Json) (f : String × Json) (fs : List (String × Json)) :
    fieldChars ((k, j) :: f :: fs) =
      stringChars k ++ ':' :: (j.chars ++ ',' :: fieldChars (f :: fs)) := by
  show stringChars k ++ ':' :: j.chars ++ ',' :: fieldChars (f :: fs) = _
  rw [List.append_assoc]
  rfl

theorem itemChars_eq_cons (j : Json) (js : List Json) :
    ∃ c cs, itemChars (j :: js) = c :: cs ∧ Opens c := by
  obtain ⟨c, cs, h, hc⟩ := chars_eq_cons j
  cases js with
  | nil => exact ⟨c, _, by rw [itemChars, h]; rfl, hc⟩
  | cons j' js => exact ⟨c, _, by rw [itemChars_more, h]; rfl, hc⟩

theorem fieldChars_eq_cons (k : String) (j : Json) (fs : List (String × Json)) :
    ∃ cs, fieldChars ((k, j) :: fs) = '"' :: cs := by
  cases fs <;> exact ⟨_, rfl⟩

theorem length_itemChars_pos (js : List Json) : 0 < (itemChars js).length := by
  cases js with
  | nil => exact Nat.one_pos
  | cons j js =>
    obtain ⟨c, cs, h, -⟩ := itemChars_eq_cons j js
    rw [h]
    exact Nat.succ_pos _

theorem length_fieldChars_pos (fs : List (String × Json)) : 0 < (fieldChars fs).length := by
  cases fs with
  | nil => exact Nat.one_pos
  | cons f fs =>
    obtain ⟨cs, h⟩ := fieldChars_eq_cons f.1 f.2 fs
    rw [h]
    exact Nat.succ_pos _

theorem skipBlank_cons {c : Char} (h : isBlank c = false) (cs : List Char) :
    skipBlank (c :: cs) = c :: cs :=
  List.dropWhile_cons_of_neg (by simp [h])

section
variable {n : Nat} {c : Char} {cs rest : List Char}

theorem value_digit (h : c.isDigit = true) :
    value (n + 1) (c :: cs) = scanNumber false (c :: cs) := by
  rw [value, skipBlank_cons (opens_of_isDigit h).1]
  split
  case h_1 heq => exact absurd heq (by simp)
  case h_9 heq =>
    obtain ⟨rfl, rfl⟩ := List.cons.inj heq
    exact if_pos h
  all_goals
    rename_i heq
    obtain ⟨rfl, -⟩ := List.cons.inj heq
    exact absurd h (by decide)

theorem value_list (h : Opens c) :
    value (n + 1) ('[' :: c :: cs) = (do
      let (js, cs) ← items n (c :: cs)
      return (.arr js, cs)) := by
  rw [value, skipBlank_cons (by decide)]
  simp only [skipBlank_cons h.1]
  split
  · rename_i heq
    exact absurd heq (by simp)
  · rename_i heq
    exact absurd (List.cons.inj heq).1 h.2
  · rfl

theorem value_object :
    value (n + 1) ('\x7b' :: '"' :: cs) = (do
      let (ms, cs) ← members n ('"' :: cs)
      return (ofMembers ms, cs)) := by
  rw [value, skipBlank_cons (by decide)]
  rfl

theorem value_string (s : String) :
    value (n + 1) (stringChars s ++ rest) = .ok (.str s, rest) := by
  obtain ⟨ps, hps, hscan⟩ := scanString_chars s rest
  rw [stringChars_append, value, skipBlank_cons (by decide)]
  simp only [hscan, ok_bind, hps]
  rfl

theorem value_other (hr : EndsNumber rest) :
    value (n + 1) (chars .other ++ rest) = .ok (.other, rest) := by
  show value (n + 1) ('-' :: (Nat.toDigits 10 0 ++ rest)) = _
  rw [value, skipBlank_cons (by decide)]
  simp only [scanNumber_toDigits true 0 hr, if_true]

theorem value_int (i : Int) (hr : EndsNumber rest) :
    value (n + 1) (intChars i ++ rest) = .ok (.int i, rest) := by
  cases i with
  | ofNat m =>
    obtain ⟨d, ds, h⟩ := List.exists_cons_of_ne_nil (Nat.toDigits_ne_nil (n := m) (b := 10))
    have hd : d.isDigit = true :=
      Nat.isDigit_of_mem_toDigits (by decide) (by decide) (h ▸ List.mem_cons_self)
    have hscan := scanNumber_toDigits false m hr
    rw [intChars]
    rw [h, List.cons_append] at hscan ⊢
    rw [value_digit hd, hscan]
    rfl
  | negSucc m =>
    rw [intChars, List.cons_append, value, skipBlank_cons (by decide)]
    simp only [scanNumber_toDigits true (m + 1) hr, if_true]
    rfl

end

/-! ### lists and objects -/

section
variable {n : Nat} {cs cs' rest : List Char} {j : Json}

theorem items_last (h : value n cs = .ok (j, ']' :: rest)) :
    items (n + 1) cs = .ok ([j], rest) := by
  rw [items, h]
  rfl

theorem items_more {js : List Json} (h : value n cs = .ok (j, ',' :: cs'))
    (h' : items n cs' = .ok (js, rest)) : items (n + 1) cs = .ok (j :: js, rest) := by
  rw [items, h]
  show (items n cs' >>= _) = _
  rw [h']
  rfl

theorem members_last (k : String) (h : value n cs = .ok (j, '\x7d' :: rest)) :
    members (n + 1) (stringChars k ++ ':' :: cs) = .ok ([(some k, j)], rest) := by
  obtain ⟨ps, hps, hscan⟩ := scanString_chars k (':' :: cs)
  rw [stringChars_append, members, skipBlank_cons (by decide)]
  simp only [hscan, ok_bind, skipBlank_cons (show isBlank ':' = false by decide), h, hps]
  rfl

theorem members_more (k : String) {ms : List (Option String × Json)}
    (h : value n cs = .ok (j, ',' :: cs')) (h' : members n cs' = .ok (ms, rest)) :
    members (n + 1) (stringChars k ++ ':' :: cs) = .ok ((some k, j) :: ms, rest) := by
  obtain ⟨ps, hps, hscan⟩ := scanString_chars k (':' :: cs)
  rw [stringChars_append, members, skipBlank_cons (by decide)]
  simp only [hscan, ok_bind, skipBlank_cons (show isBlank ':' = false by decide), h, hps]
  show (members n cs' >>= _) = _
  rw [h']
  rfl

end

theorem ofMembers_fields (fs : List (String × Json)) :
    ofMembers (fs.map fun f => (some f.1, f.2)) = .obj fs := by
  have h : (fs.map fun f => (some f.1, f.2)).mapM
      (fun m : Option String × Json => m.1.map fun k => (k, m.2)) = some fs := by
    induction fs with
    | nil => rfl
    | cons f fs ih =>
      rw [List.map_cons, List.mapM_cons, ih]
      rfl
  rw [ofMembers, h]

mutual

/-- The text of a value is read back in no more steps than it has characters. -/
theorem value_chars (j : Json) {n : Nat} (h : j.chars.length ≤ n) {rest : List Char}
    (hr : EndsNumber rest) : value n (j.chars ++ rest) = .ok (j, rest) := by
  obtain ⟨n, rfl⟩ := Nat.exists_eq_add_one.mpr (Nat.lt_of_lt_of_le j.length_chars_pos h)
  match j with
  | .null => rfl
  | .bool true => rfl
  | .bool false => rfl
  | .int i => exact value_int i hr
  | .str s => exact value_string s
  | .other => exact value_other hr
  | .arr [] => rfl
  | .arr (j :: js) =>
    have hitems := items_itemChars (j :: js) (by simp) (Nat.le_of_succ_le_succ h) rest
    obtain ⟨c, cs, hc, hopens⟩ := itemChars_eq_cons j js
    rw [chars]
    rw [hc] at hitems ⊢
    rw [List.cons_append, List.cons_append, value_list hopens, ← List.cons_append, hitems]
    rfl
  | .obj [] => rfl
  | .obj ((k, j) :: fs) =>
    have hmembers := members_fieldChars ((k, j) :: fs) (by simp) (Nat.le_of_succ_le_succ h) rest
    obtain ⟨cs, hc⟩ := fieldChars_eq_cons k j fs
    rw [chars]
    rw [hc] at hmembers ⊢
    rw [List.cons_append, List.cons_append, value_object, ← List.cons_append, hmembers, ok_bind]
    exact congrArg (fun v => Except.ok (v, rest)) (ofMembers_fields _)

theorem items_itemChars (js : List Json) (hne : js ≠ []) {n : Nat}
    (h : (itemChars js).length ≤ n) (rest : List Char) :
    items n (itemChars js ++ rest) = .ok (js, rest) := by
  obtain ⟨n, rfl⟩ := Nat.exists_eq_add_one.mpr (Nat.lt_of_lt_of_le (length_itemChars_pos js) h)
  match js with
  | [] => exact absurd rfl hne
  | [j] =>
    rw [itemChars, List.length_append, List.length_singleton] at h
    rw [itemChars, List.append_assoc]
    exact items_last (value_chars j (by omega) (endsNumber_cons (by decide) (by decide) _))
  | j :: j' :: js =>
    rw [itemChars_more, List.length_append, List.length_cons] at h
    rw [itemChars_more, List.append_assoc]
    exact items_more (value_chars j (by omega) (endsNumber_cons (by decide) (by decide) _))
      (items_itemChars (j' :: js) (by simp) (by omega) rest)

theorem members_fieldChars (fs : List (String × Json)) (hne : fs ≠ []) {n : Nat}
    (h : (fieldChars fs).length ≤ n) (rest : List Char) :
    members n (fieldChars fs ++ rest) = .ok (fs.map fun f => (some f.1, f.2), rest) := by
  obtain ⟨n, rfl⟩ := Nat.exists_eq_add_one.mpr (Nat.lt_of_lt_of_le (length_fieldChars_pos fs) h)
  match fs with
  | [] => exact absurd rfl hne
  | [(k, j)] =>
    rw [fieldChars_last, List.length_append, List.length_cons, List.length_append] at h
    rw [fieldChars_last, List.append_assoc, List.cons_append, List.append_assoc]
    exact members_last k (value_chars j (by omega) (endsNumber_cons (by decide) (by decide) _))
  | (k, j) :: f :: fs =>
    rw [fieldChars_more, List.length_append, List.length_cons, List.length_append,
      List.length_cons] at h
    rw [fieldChars_more, List.append_assoc, List.cons_append, List.append_assoc]
    exact members_more k (value_chars j (by omega) (endsNumber_cons (by decide) (by decide) _))
      (members_fieldChars (f :: fs) (by simp) (by omega) rest)

end

/-- **The compact text of a value reads as the value.** -/
theorem parse_compact (j : Json) : parse j.compact = .ok j := by
  have h : value (2 * j.chars.length + 1) (j.chars ++ []) = .ok (j, []) :=
    value_chars j (by omega) fun c hc => absurd hc (by simp)
  rw [List.append_nil] at h
  rw [parse, compact, String.toList_ofList, parseChars, h]
  rfl

end AnfWasm.Json
