import AnfWasm.SourceMap.Basic

/-!
# Reading mappings

A decoder for the mappings of a source map of revision 3.  Lines end with semicolons and the
segments of a line with commas.  A segment has one, four or five numbers, which are added to those
of the segment before it: the generated column, and the source, the line and the column in it, and a
name.  The column starts again on each line.

What is written for sorted mappings is read as these mappings (`decode_segments`).
-/

namespace AnfWasm

namespace Vlq

/-- the value of a digit in base 64 -/
def value? (c : Char) : Option Nat :=
  if 'A' ≤ c ∧ c ≤ 'Z' then some (c.toNat - 'A'.toNat)
  else if 'a' ≤ c ∧ c ≤ 'z' then some (c.toNat - 'a'.toNat + 26)
  else if '0' ≤ c ∧ c ≤ '9' then some (c.toNat - '0'.toNat + 52)
  else if c = '+' then some 62
  else if c = '/' then some 63
  else none

/-- the number at the start of a text, and what follows it -/
def decodeNat : List Char → Option (Nat × List Char)
  | [] => none
  | c :: cs => do
    let v ← value? c
    if v < 32 then return (v, cs)
    else
      let (n, rest) ← decodeNat cs
      return (32 * n + (v - 32), rest)

/-- the lowest bit is the sign -/
def unzigzag (n : Nat) : Int := if n % 2 = 0 then (n / 2 : Nat) else -((n / 2 : Nat) : Int)

def decode (cs : List Char) : Option (Int × List Char) :=
  (decodeNat cs).map fun (n, rest) => (unzigzag n, rest)

theorem value?_digit {n : Nat} (h : n < 64) : value? (digit n) = some n := by
  have hall : ∀ n < 64, value? (digit n) = some n := by decide +kernel
  exact hall n h

theorem decodeNat_encodeNat (n : Nat) (rest : List Char) :
    decodeNat (encodeNat n ++ rest) = some (n, rest) := by
  induction n using encodeNat.induct with
  | case1 n hn =>
    rw [encodeNat, if_pos hn]
    simp [decodeNat, value?_digit (Nat.lt_trans hn (by decide)), hn]
  | case2 n hn ih =>
    have hlt : n % 32 + 32 < 64 := Nat.add_lt_add_right (Nat.mod_lt n (by decide)) 32
    have hmore : ¬n % 32 + 32 < 32 := Nat.not_lt.mpr (Nat.le_add_left 32 _)
    rw [encodeNat, if_neg hn, List.cons_append, decodeNat, value?_digit hlt]
    simp [ih, hmore, Nat.div_add_mod]

theorem unzigzag_zigzag (v : Int) : unzigzag (zigzag v) = v := by
  cases v with
  | ofNat n => simp [zigzag, unzigzag]
  | negSucc n =>
    have hmod : (2 * (n + 1) + 1) % 2 ≠ 0 := by omega
    have hdiv : (2 * (n + 1) + 1) / 2 = n + 1 := by omega
    rw [zigzag, unzigzag, if_neg hmod, hdiv]
    rfl

theorem decode_encode (v : Int) (rest : List Char) :
    decode (encode v ++ rest) = some (v, rest) := by
  rw [decode, encode, decodeNat_encodeNat]
  show some (unzigzag (zigzag v), rest) = _
  rw [unzigzag_zigzag]

end Vlq

namespace SourceMap

/-- where a generated position comes from; sources and names are given by their indices -/
structure Origin where
  source : Nat
  line : Nat
  column : Nat
  name : Option Nat
deriving DecidableEq

/-- a generated position, and where it comes from if that is told -/
structure Segment where
  line : Nat
  column : Nat
  origin : Option Origin
deriving DecidableEq

/-- the numbers that the next segment adds to -/
structure Totals where
  line : Nat
  column : Nat
  source : Nat
  sourceLine : Nat
  sourceColumn : Nat
  name : Nat

def Totals.start : Totals := ⟨0, 0, 0, 0, 0, 0⟩

/-- positions and indices are not negative -/
def add? (n : Nat) (d : Int) : Option Nat := (n + d).toNat?

/-- the segment with these numbers -/
def Totals.read (t : Totals) : List Int → Option (Segment × Totals)
  | [column] => do
    let column ← add? t.column column
    return (⟨t.line, column, none⟩, { t with column })
  | [column, source, sourceLine, sourceColumn] => do
    let column ← add? t.column column
    let source ← add? t.source source
    let sourceLine ← add? t.sourceLine sourceLine
    let sourceColumn ← add? t.sourceColumn sourceColumn
    return (⟨t.line, column, some ⟨source, sourceLine, sourceColumn, none⟩⟩,
      { t with column, source, sourceLine, sourceColumn })
  | [column, source, sourceLine, sourceColumn, name] => do
    let column ← add? t.column column
    let source ← add? t.source source
    let sourceLine ← add? t.sourceLine sourceLine
    let sourceColumn ← add? t.sourceColumn sourceColumn
    let name ← add? t.name name
    return (⟨t.line, column, some ⟨source, sourceLine, sourceColumn, some name⟩⟩,
      { t with column, source, sourceLine, sourceColumn, name })
  | _ => none

/-- there is no more of a segment -/
def atEnd : List Char → Bool
  | [] => true
  | c :: _ => c == ',' || c == ';'

/-- the numbers of a segment, at most so many, and what follows them -/
def fields : Nat → List Char → Option (List Int × List Char)
  | 0, cs => if atEnd cs then some ([], cs) else none
  | n + 1, cs =>
    if atEnd cs then some ([], cs)
    else do
      let (v, rest) ← Vlq.decode cs
      let (vs, rest) ← fields n rest
      return (v :: vs, rest)

/-- Reads the segments of a text.  Every step takes a character, so with as much fuel as there are
characters it never runs out. -/
def decodeFrom : Nat → Totals → List Char → Option (List Segment)
  | _, _, [] => some []
  | 0, _, _ :: _ => none
  | fuel + 1, t, c :: cs =>
    if c = ';' then decodeFrom fuel { t with line := t.line + 1, column := 0 } cs
    else if c = ',' then decodeFrom fuel t cs
    else do
      let (values, rest) ← fields 5 (c :: cs)
      let (segment, t) ← t.read values
      return segment :: (← decodeFrom fuel t rest)

/-- the segments that the mappings of a source map are -/
def decode (mappings : String) : Option (List Segment) :=
  decodeFrom mappings.toList.length .start mappings.toList

/-! ### numbers -/

theorem not_atEnd_encode (v : Int) (rest : List Char) : atEnd (Vlq.encode v ++ rest) = false := by
  have h := Vlq.decode_encode v rest
  cases htext : Vlq.encode v ++ rest with
  | nil =>
    rw [htext] at h
    exact absurd h (by simp [Vlq.decode, Vlq.decodeNat])
  | cons c cs =>
    -- a separator is not a digit
    rw [htext] at h
    refine Bool.eq_false_iff.mpr fun hend => ?_
    have hc : c = ',' ∨ c = ';' := by simpa [atEnd] using hend
    rcases hc with rfl | rfl
    · exact absurd h (by simp [Vlq.decode, Vlq.decodeNat, Vlq.value?])
    · exact absurd h (by simp [Vlq.decode, Vlq.decodeNat, Vlq.value?])

theorem fields_encode {n : Nat} {vs : List Int} {rest : List Char} (hn : vs.length ≤ n)
    (hrest : atEnd rest = true) : fields n (vs.flatMap Vlq.encode ++ rest) = some (vs, rest) := by
  induction vs generalizing n with
  | nil => cases n <;> simp [fields, hrest]
  | cons v vs ih =>
    cases n with
    | zero => exact absurd hn (by simp)
    | succ n =>
      rw [List.flatMap_cons, List.append_assoc, fields, not_atEnd_encode, Vlq.decode_encode]
      simp [ih (Nat.le_of_succ_le_succ hn)]

/-! ### segments -/

/-- the mapping as a segment -/
def segmentOf (m : Mapping) : Segment :=
  ⟨m.generated.line.toNat, m.generated.column.toNat,
    some ⟨m.source.toNat, m.position.line.toNat, m.position.column.toNat, m.name.map UInt32.toNat⟩⟩

/-- reading and writing are at the same place -/
structure Cursor.Agrees (c : Cursor) (t : Totals) : Prop where
  line : t.line = c.line
  column : (t.column : Int) = c.column
  source : (t.source : Int) = c.source
  sourceLine : (t.sourceLine : Int) = c.sourceLine
  sourceColumn : (t.sourceColumn : Int) = c.sourceColumn
  name : (t.name : Int) = c.name

/-- the numbers of the segment of a mapping -/
def deltas (c : Cursor) (m : Mapping) : List Int :=
  [m.generated.column.toNat - c.column, m.source.toNat - c.source,
    m.position.line.toNat - c.sourceLine, m.position.column.toNat - c.sourceColumn]
    ++ (m.name.map fun n => (n.toNat : Int) - c.name).toList

theorem segment_eq (c : Cursor) (m : Mapping) : segment c m = (deltas c m).flatMap Vlq.encode := by
  cases h : m.name <;> simp [segment, deltas, h]

theorem not_atEnd_segment (c : Cursor) (m : Mapping) (rest : List Char) :
    atEnd (segment c m ++ rest) = false := by
  rw [segment, List.append_assoc, List.append_assoc, List.append_assoc, List.append_assoc]
  exact not_atEnd_encode _ _

theorem fields_segment (c : Cursor) (m : Mapping) {rest : List Char} (hrest : atEnd rest = true) :
    fields 5 (segment c m ++ rest) = some (deltas c m, rest) := by
  have hlen : (deltas c m).length ≤ 5 := by cases h : m.name <;> simp [deltas, h]
  rw [segment_eq]
  exact fields_encode hlen hrest

theorem add?_sub {n : Nat} {x : Int} (h : (n : Int) = x) (k : Nat) : add? n (k - x) = some k := by
  have hsum : (n : Int) + (k - x) = k := by omega
  rw [add?, hsum]
  rfl

def Totals.after (t : Totals) (m : Mapping) : Totals :=
  { t with
    column := m.generated.column.toNat
    source := m.source.toNat
    sourceLine := m.position.line.toNat
    sourceColumn := m.position.column.toNat
    name := (m.name.map UInt32.toNat).getD t.name }

theorem Cursor.Agrees.after {c : Cursor} {t : Totals} (h : c.Agrees t) (m : Mapping) :
    (c.after m).Agrees (t.after m) := by
  refine ⟨h.line, rfl, rfl, rfl, rfl, ?_⟩
  cases hname : m.name <;> simp [Totals.after, Cursor.after, hname, h.name]

theorem Cursor.Agrees.read {c : Cursor} {t : Totals} {m : Mapping} (h : c.Agrees t)
    (hline : c.line = m.generated.line.toNat) :
    t.read (deltas c m) = some (segmentOf m, t.after m) := by
  have hcolumn := add?_sub h.column m.generated.column.toNat
  have hsource := add?_sub h.source m.source.toNat
  have hsourceLine := add?_sub h.sourceLine m.position.line.toNat
  have hsourceColumn := add?_sub h.sourceColumn m.position.column.toNat
  cases hname : m.name with
  | none =>
    simp [deltas, hname, Totals.read, hcolumn, hsource, hsourceLine, hsourceColumn, segmentOf,
      Totals.after, h.line, hline]
  | some n =>
    have hn := add?_sub h.name n.toNat
    simp [deltas, hname, Totals.read, hcolumn, hsource, hsourceLine, hsourceColumn, hn, segmentOf,
      Totals.after, h.line, hline]

/-! ### texts -/

section
variable {fuel : Nat} {c : Cursor} {t : Totals} {text rest : List Char}

theorem decodeFrom_semicolon : decodeFrom (fuel + 1) t (';' :: rest) =
    decodeFrom fuel { t with line := t.line + 1, column := 0 } rest := by
  rw [decodeFrom, if_pos rfl]

theorem decodeFrom_breaks (k : Nat) :
    decodeFrom (fuel + (k + 1)) t (List.replicate (k + 1) ';' ++ rest) =
      decodeFrom fuel { t with line := t.line + (k + 1), column := 0 } rest := by
  induction k generalizing t with
  | zero => exact decodeFrom_semicolon
  | succ k ih =>
    rw [List.replicate_succ, List.cons_append, ← Nat.add_assoc, decodeFrom_semicolon, ih,
      Nat.add_assoc, Nat.add_comm 1]

theorem decodeFrom_comma : decodeFrom (fuel + 1) t (',' :: rest) = decodeFrom fuel t rest := by
  rw [decodeFrom, if_neg (by decide), if_pos rfl]

theorem decodeFrom_segment {values : List Int} {segment : Segment} {t' : Totals}
    (hstart : atEnd text = false) (hfields : fields 5 text = some (values, rest))
    (hread : t.read values = some (segment, t')) :
    decodeFrom (fuel + 1) t text = (decodeFrom fuel t' rest).map (segment :: ·) := by
  cases text with
  | nil => exact absurd hstart (by simp [atEnd])
  | cons c cs =>
    have hc : c ≠ ',' ∧ c ≠ ';' := by simpa [atEnd] using hstart
    rw [decodeFrom, if_neg hc.2, if_neg hc.1, hfields]
    simp only [Option.bind_eq_bind, Option.bind_some, hread]
    cases decodeFrom fuel t' rest <;> rfl

/-- what is written before a segment of the same line -/
def separator (c : Cursor) : List Char := if c.fresh then [] else [',']

theorem decodeFrom_separator :
    decodeFrom (fuel + (separator c).length) t (separator c ++ rest) = decodeFrom fuel t rest := by
  unfold separator
  cases c.fresh with
  | true => rfl
  | false => exact decodeFrom_comma

theorem Cursor.Agrees.toLine (h : c.Agrees t) {line : Nat} (hline : c.line ≤ line) :
    (c.toLine line).2.line = line ∧ ∃ t', (c.toLine line).2.Agrees t' ∧ ∀ fuel rest,
      decodeFrom (fuel + (c.toLine line).1.length) t ((c.toLine line).1 ++ rest) =
        decodeFrom fuel t' rest := by
  unfold Cursor.toLine
  by_cases hlt : c.line < line
  · obtain ⟨k, hk⟩ := Nat.exists_eq_add_of_lt hlt
    have hbreaks : line - c.line = k + 1 := by omega
    rw [if_pos hlt, hbreaks]
    refine ⟨rfl, { t with line := line, column := 0 }, ?_, fun fuel rest => ?_⟩
    · exact ⟨rfl, rfl, h.source, h.sourceLine, h.sourceColumn, h.name⟩
    · rw [List.length_replicate, decodeFrom_breaks, h.line]
      rw [hk, Nat.add_assoc]
  · rw [if_neg hlt]
    exact ⟨Nat.le_antisymm hline (Nat.le_of_not_lt hlt), t, h, fun fuel rest => rfl⟩

theorem segments_cons (c : Cursor) (m : Mapping) (ms : List Mapping) : segments c (m :: ms) =
    (c.toLine m.generated.line.toNat).1 ++ (separator (c.toLine m.generated.line.toNat).2 ++
      (segment (c.toLine m.generated.line.toNat).2 m ++
        segments ((c.toLine m.generated.line.toNat).2.after m) ms)) := by
  rw [← List.append_assoc, ← List.append_assoc]
  rfl

/-- what follows a segment starts with a separator -/
theorem atEnd_segments (hc : c.fresh = false) (ms : List Mapping) :
    atEnd (segments c ms) = true := by
  cases ms with
  | nil => rfl
  | cons m ms =>
    rw [segments_cons]
    unfold Cursor.toLine
    by_cases hlt : c.line < m.generated.line.toNat
    · obtain ⟨k, hk⟩ := Nat.exists_eq_add_of_lt hlt
      have hbreaks : m.generated.line.toNat - c.line = k + 1 := by omega
      rw [if_pos hlt, hbreaks, List.replicate_succ]
      rfl
    · rw [if_neg hlt, separator, hc]
      rfl

end

/-- sorted by generated position -/
def Sorted (ms : List Mapping) : Prop := ms.Pairwise fun a b => inOrder a b = true

theorem line_le_of_inOrder {a b : Mapping} (h : inOrder a b = true) :
    a.generated.line.toNat ≤ b.generated.line.toNat := by
  have hline : (compare a.generated.line b.generated.line).isLE = true := by
    unfold inOrder Loc.compare at h
    cases hc : compare a.generated.line b.generated.line with
    | lt | eq => rfl
    | gt =>
      rw [hc] at h
      exact absurd h (by simp)
  have hle : a.generated.line ≤ b.generated.line := Std.isLE_compare.mp hline
  exact hle

theorem decodeFrom_segments {ms : List Mapping} {c : Cursor} {t : Totals} {fuel : Nat}
    (h : c.Agrees t) (hfirst : ∀ m ∈ ms, c.line ≤ m.generated.line.toNat)
    (hsorted : Sorted ms) (hfuel : (segments c ms).length ≤ fuel) :
    decodeFrom fuel t (segments c ms) = some (ms.map segmentOf) := by
  induction ms generalizing c t fuel with
  | nil => cases fuel <;> rfl
  | cons m ms ih =>
    obtain ⟨hline, t', h', hbreaks⟩ := h.toLine (hfirst m List.mem_cons_self)
    obtain ⟨hm, hms⟩ := List.pairwise_cons.mp hsorted
    rw [segments_cons] at hfuel ⊢
    generalize (c.toLine m.generated.line.toNat).2 = c' at *
    generalize (c.toLine m.generated.line.toNat).1 = breaks at *
    have hend := atEnd_segments (show (c'.after m).fresh = false from rfl) ms
    have hstart := not_atEnd_segment c' m (segments (c'.after m) ms)
    have hfields := fields_segment c' m hend
    have hpos : 0 < (segment c' m).length := by
      refine List.length_pos_iff.mpr fun hnil => ?_
      rw [hnil, List.nil_append, hend] at hstart
      exact absurd hstart (by simp)
    simp only [List.length_append] at hfuel
    obtain ⟨k, rfl⟩ : ∃ k, fuel = k + 1 + (separator c').length + breaks.length :=
      ⟨fuel - 1 - (separator c').length - breaks.length, by omega⟩
    have hrest : decodeFrom k (t'.after m) (segments (c'.after m) ms) =
        some (ms.map segmentOf) := by
      refine ih (h'.after m) (fun m' hm' => ?_) hms (by omega)
      show c'.line ≤ _
      rw [hline]
      exact line_le_of_inOrder (hm m' hm')
    rw [hbreaks, decodeFrom_separator, decodeFrom_segment hstart hfields (h'.read hline), hrest]
    rfl

theorem decode_segments {ms : List Mapping} (hsorted : Sorted ms) :
    decode (String.ofList (segments .start ms)) = some (ms.map segmentOf) := by
  rw [decode, String.toList_ofList]
  exact decodeFrom_segments ⟨rfl, rfl, rfl, rfl, rfl, rfl⟩ (fun _ _ => Nat.zero_le _) hsorted
    (Nat.le_refl _)

end SourceMap

end AnfWasm
