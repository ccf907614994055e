import AnfWasm.Proofs.SourceMap.Decoder
import Mathlib.Algebra.Group.Nat.Defs
import Mathlib.Data.List.Forall2

/-!
# What is built is what was added

A `Call` is one use of a builder.  Over any sequence of calls the tables of sources and of names
only grow at their ends, so a string stays where it is once it is in (`Grows`), and the mappings
arrive one after the other.  Sorting them by generated position is stable (`filter_mergeSort`), and
a decoder reads the sorted list.

An index has 32 bits.  It selects its string for as long as there are indices for all strings of the
table (`build_calls`), and no longer (`crowd_not_returned`).
-/

namespace AnfWasm

/-! ### the order of positions -/

/-- by line, and on one line by column -/
def Loc.Before (a b : Loc) : Prop := a.line < b.line ∨ a.line = b.line ∧ a.column ≤ b.column

namespace SourceMap

theorem inOrder_iff {a b : Mapping} : inOrder a b = true ↔ a.generated.Before b.generated := by
  show (Loc.compare _ _).isLE = true ↔ _
  rw [Loc.compare, Ordering.isLE_then_iff_or, Std.compare_eq_lt, Std.compare_eq_iff_eq,
    Std.isLE_compare]
  rfl

theorem inOrder_trans (a b c : Mapping) (hab : inOrder a b = true) (hbc : inOrder b c = true) :
    inOrder a c = true := by
  rw [inOrder_iff, Loc.Before] at *
  simp only [UInt32.lt_iff_toNat_lt, UInt32.le_iff_toNat_le, ← UInt32.toNat_inj] at *
  omega

theorem inOrder_total (a b : Mapping) : (inOrder a b || inOrder b a) = true := by
  rw [Bool.or_eq_true, inOrder_iff, inOrder_iff, Loc.Before, Loc.Before]
  simp only [UInt32.lt_iff_toNat_lt, UInt32.le_iff_toNat_le, ← UInt32.toNat_inj]
  omega

theorem sorted_mergeSort (ms : List Mapping) : Sorted (ms.mergeSort inOrder) :=
  List.pairwise_mergeSort inOrder_trans inOrder_total ms

/-- The mappings of one position keep their order. -/
theorem filter_mergeSort (ms : List Mapping) (l : Loc) :
    (ms.mergeSort inOrder).filter (fun m => m.generated = l) =
      ms.filter fun m => m.generated = l := by
  have hone : (ms.filter fun m => m.generated = l).Pairwise fun a b => inOrder a b = true := by
    rw [List.pairwise_filter]
    refine List.pairwise_of_forall fun a b ha hb => inOrder_iff.mpr (.inr ?_)
    rw [of_decide_eq_true ha, of_decide_eq_true hb]
    exact ⟨rfl, UInt32.le_refl _⟩
  have hsub : (ms.filter fun m => m.generated = l).Sublist (ms.mergeSort inOrder) :=
    List.sublist_mergeSort inOrder_trans inOrder_total hone List.filter_sublist
  have hlen := ((ms.mergeSort_perm inOrder).filter fun m => m.generated = l).length_eq
  have hfilter := hsub.filter fun m => m.generated = l
  rw [List.filter_filter] at hfilter
  simp only [Bool.and_self] at hfilter
  exact (hfilter.eq_of_length hlen.symm).symm

end SourceMap

namespace MapBuilder

theorem decode_build (b : MapBuilder) : SourceMap.decode b.build.mappings =
    some ((b.mappings.mergeSort SourceMap.inOrder).map SourceMap.segmentOf) :=
  SourceMap.decode_segments (SourceMap.sorted_mergeSort b.mappings)

/-! ### tables -/

/-- the string stands at that index of the table -/
def Selects (table : List String) (i : UInt32) (s : String) : Prop := table[i.toNat]? = some s

theorem intern_place (table : List String) (s : String) :
    ∃ k, (intern table s).1 = .ofNat k ∧ (intern table s).2[k]? = some s := by
  unfold intern
  cases hi : table.idxOf? s with
  | some i =>
    obtain ⟨hlt, hget, -⟩ := List.idxOf?_eq_some_iff.mp hi
    exact ⟨i, rfl, List.getElem?_eq_some_iff.mpr ⟨hlt, hget⟩⟩
  | none => exact ⟨table.length, rfl, List.getElem?_concat_length⟩

/-- an index selects its string also in what the table becomes later, if that is not too long -/
theorem selects_intern {table later : List String} {s : String}
    (h : (intern table s).2 <+: later) (hlen : later.length ≤ 2 ^ 32) :
    Selects later (intern table s).1 s := by
  obtain ⟨k, hk, hget⟩ := intern_place table s
  obtain ⟨rest, rfl⟩ := h
  have hlt : k < (intern table s).2.length := (List.getElem?_eq_some_iff.mp hget).1
  have hk32 : k < 2 ^ 32 := by
    rw [List.length_append] at hlen
    omega
  rw [Selects, hk, UInt32.toNat_ofNat_of_lt' hk32, List.getElem?_append_left hlt, hget]

theorem prefix_intern (table : List String) (s : String) : table <+: (intern table s).2 := by
  unfold intern
  cases table.idxOf? s with
  | some i => exact List.prefix_rfl
  | none => exact List.prefix_append _ _

theorem length_intern_le (table : List String) (s : String) :
    (intern table s).2.length ≤ table.length + 1 := by
  unfold intern
  cases table.idxOf? s with
  | some i => exact Nat.le_succ _
  | none => exact Nat.le_of_eq List.length_append

theorem nodup_intern {table : List String} (h : table.Nodup) (s : String) :
    (intern table s).2.Nodup := by
  unfold intern
  cases hi : table.idxOf? s with
  | some i => exact h
  | none =>
    refine List.nodup_append.mpr ⟨h, List.pairwise_singleton _ s, fun a ha b hb => ?_⟩
    obtain rfl := List.mem_singleton.mp hb
    rintro rfl
    exact List.idxOf?_eq_none_iff.mp hi ha

/-! ### calls -/

inductive Call where
  | addSource (s : String)
  | addName (s : String)
  | addMapping (m : Mapping)

namespace Call

def mapping? : Call → Option Mapping
  | .addMapping m => some m
  | _ => none

def source? : Call → Option String
  | .addSource s => some s
  | _ => none

def name? : Call → Option String
  | .addName s => some s
  | _ => none

end Call

/-- the index that a call returns, if it returns one, and the builder after it -/
def call (b : MapBuilder) : Call → Option UInt32 × MapBuilder
  | .addSource s => (some (b.addSource s).1, (b.addSource s).2)
  | .addName s => (some (b.addName s).1, (b.addName s).2)
  | .addMapping m => (none, b.addMapping m)

/-- what the calls return, one after the other, and the builder after them -/
def calls (b : MapBuilder) : List Call → List (Option UInt32) × MapBuilder
  | [] => ([], b)
  | c :: cs => ((b.call c).1 :: ((b.call c).2.calls cs).1, ((b.call c).2.calls cs).2)

/-- what was returned for a string selects it -/
def Returned (table : List String) (asked : Option String) (answer : Option UInt32) : Prop :=
  ∀ s, asked = some s → ∃ i, answer = some i ∧ Selects table i s

/-- `b'` comes from `b` by calls that add these mappings. -/
structure Grows (b : MapBuilder) (added : List Mapping) (b' : MapBuilder) : Prop where
  sources : b.sources <+: b'.sources
  names : b.names <+: b'.names
  nodup_sources : b.sources.Nodup → b'.sources.Nodup
  nodup_names : b.names.Nodup → b'.names.Nodup
  mappings : b'.mappings = b.mappings ++ added

theorem Grows.refl (b : MapBuilder) : Grows b [] b :=
  ⟨List.prefix_rfl, List.prefix_rfl, id, id, (List.append_nil _).symm⟩

theorem Grows.trans {b b' b'' : MapBuilder} {ms ms' : List Mapping} (h : Grows b ms b')
    (h' : Grows b' ms' b'') : Grows b (ms ++ ms') b'' where
  sources := h.sources.trans h'.sources
  names := h.names.trans h'.names
  nodup_sources := fun hb => h'.nodup_sources (h.nodup_sources hb)
  nodup_names := fun hb => h'.nodup_names (h.nodup_names hb)
  mappings := by rw [h'.mappings, h.mappings, List.append_assoc]

theorem grows_call (b : MapBuilder) (c : Call) : Grows b c.mapping?.toList (b.call c).2 := by
  cases c with
  | addSource s =>
    exact ⟨prefix_intern _ s, List.prefix_rfl, fun h => nodup_intern h s, id,
      (List.append_nil _).symm⟩
  | addName s =>
    exact ⟨List.prefix_rfl, prefix_intern _ s, id, fun h => nodup_intern h s,
      (List.append_nil _).symm⟩
  | addMapping m => exact ⟨List.prefix_rfl, List.prefix_rfl, id, id, rfl⟩

theorem grows_calls (b : MapBuilder) (cs : List Call) :
    Grows b (cs.filterMap Call.mapping?) (b.calls cs).2 := by
  induction cs generalizing b with
  | nil => exact .refl b
  | cons c cs ih =>
    have h := (b.grows_call c).trans (ih (b.call c).2)
    cases hc : c.mapping? with
    | none =>
      rw [hc] at h
      rwa [List.filterMap_cons_none hc]
    | some m =>
      rw [hc] at h
      rwa [List.filterMap_cons_some hc]

/-- Calls that ask for a string look it up in one of the tables. -/
structure Interns (table : MapBuilder → List String) (asked : Call → Option String) : Prop where
  answer : ∀ b c s, asked c = some s → (b.call c).1 = some (intern (table b) s).1
  interned : ∀ b c s, asked c = some s → table (b.call c).2 = (intern (table b) s).2
  grows : ∀ b cs, table b <+: table (b.calls cs).2

theorem interns_sources : Interns sources Call.source? where
  answer := by
    rintro b (s | s | m) _ ⟨⟩
    rfl
  interned := by
    rintro b (s | s | m) _ ⟨⟩
    rfl
  grows b cs := (b.grows_calls cs).sources

theorem interns_names : Interns names Call.name? where
  answer := by
    rintro b (s | s | m) _ ⟨⟩
    rfl
  interned := by
    rintro b (s | s | m) _ ⟨⟩
    rfl
  grows b cs := (b.grows_calls cs).names

theorem returned_calls {table : MapBuilder → List String} {asked : Call → Option String}
    (h : Interns table asked) (b : MapBuilder) (cs : List Call)
    (hlen : (table (b.calls cs).2).length ≤ 2 ^ 32) :
    List.Forall₂ (Returned (table (b.calls cs).2)) (cs.map asked) (b.calls cs).1 := by
  induction cs generalizing b with
  | nil => exact .nil
  | cons c cs ih =>
    refine .cons (fun s hs => ⟨_, h.answer b c s hs, ?_⟩) (ih (b.call c).2 hlen)
    have hgrows := h.grows (b.call c).2 cs
    rw [h.interned b c s hs] at hgrows
    exact selects_intern hgrows hlen

/-- **A source map decodes to what was added**: after any calls a decoder finds each mapping that
was added, as often as it was added, sorted by generated position and those of one position in the
order of their arrival.  No source and no name stands twice in its table, and if a table has at most
`2 ^ 32` strings then each index that a call has returned selects the string that it was returned
for. -/
theorem build_calls (file : Option String) (cs : List Call) :
    let answers := ((ofFile file).calls cs).1
    let map := ((ofFile file).calls cs).2.build
    let added := cs.filterMap Call.mapping?
    (∃ sorted : List Mapping,
      SourceMap.decode map.mappings = some (sorted.map SourceMap.segmentOf) ∧
      sorted.Perm added ∧ sorted.Pairwise (fun a b => a.generated.Before b.generated) ∧
      ∀ l, sorted.filter (fun m => m.generated = l) = added.filter fun m => m.generated = l) ∧
    map.sources.Nodup ∧ map.names.Nodup ∧
    (map.sources.length ≤ 2 ^ 32 →
      List.Forall₂ (Returned map.sources) (cs.map Call.source?) answers) ∧
    (map.names.length ≤ 2 ^ 32 →
      List.Forall₂ (Returned map.names) (cs.map Call.name?) answers) := by
  intro answers map added
  have hgrows := (ofFile file).grows_calls cs
  have hadded : ((ofFile file).calls cs).2.mappings = added := hgrows.mappings
  refine ⟨⟨added.mergeSort SourceMap.inOrder, ?_, List.mergeSort_perm _ _, ?_, ?_⟩,
    hgrows.nodup_sources .nil, hgrows.nodup_names .nil, returned_calls interns_sources _ cs,
    returned_calls interns_names _ cs⟩
  · rw [decode_build, hadded]
  · exact (SourceMap.sorted_mergeSort added).imp fun h => SourceMap.inOrder_iff.mp h
  · exact SourceMap.filter_mergeSort added

/-- the sources `a` and `b` in turn, and a name -/
def sample : List Call :=
  [.addSource "a", .addSource "b", .addName "a", .addSource "a",
    .addMapping ⟨⟨0, 5⟩, 1, ⟨2, 3⟩, none⟩]

theorem build_calls_sample :
    ((ofFile none).calls sample).1 = [some 0, some 1, some 0, some 0, none] ∧
    ((ofFile none).calls sample).2.build.sources.length ≤ 2 ^ 32 ∧
    List.Forall₂ (Returned ((ofFile none).calls sample).2.build.sources) (sample.map Call.source?)
      ((ofFile none).calls sample).1 := by
  have hlen : ((ofFile none).calls sample).2.build.sources.length ≤ 2 ^ 32 := by decide
  exact ⟨by decide, hlen, (build_calls none sample).2.2.2.1 hlen⟩

/-! ### too many strings -/

theorem call_addSource_new {b : MapBuilder} {s : String} (h : s ∉ b.sources) :
    b.call (.addSource s)
      = (some (.ofNat b.sources.length), { b with sources := b.sources ++ [s] }) := by
  rw [call, addSource, intern, List.idxOf?_eq_none_iff.mpr h]

/-- new sources are numbered one after the other -/
theorem calls_addSource {ss : List String} (b : MapBuilder) (h : (b.sources ++ ss).Nodup) :
    (b.calls (ss.map .addSource)).2.sources = b.sources ++ ss ∧
    (b.calls (ss.map .addSource)).1
      = (List.range' b.sources.length ss.length).map fun i => some (.ofNat i) := by
  induction ss generalizing b with
  | nil => exact ⟨(List.append_nil _).symm, rfl⟩
  | cons s ss ih =>
    have hs : s ∉ b.sources := fun hs =>
      (List.nodup_append.mp h).2.2 s hs s List.mem_cons_self rfl
    rw [List.append_cons] at h
    obtain ⟨hsources, hanswers⟩ := ih { b with sources := b.sources ++ [s] } h
    rw [List.map_cons, calls, call_addSource_new hs]
    refine ⟨hsources.trans (List.append_assoc _ _ _), ?_⟩
    rw [List.length_cons, List.range'_succ, List.map_cons, hanswers, List.length_append]
    rfl

/-- strings of different lengths, the shortest first -/
def crowd (n : Nat) : List String :=
  (List.range n).map fun i => String.ofList (List.replicate i 'a')

theorem nodup_crowd (n : Nat) : (crowd n).Nodup := by
  refine List.pairwise_map.mpr (List.nodup_range.imp fun {i j} hij heq => hij ?_)
  have hlength := congrArg List.length (String.ofList_injective heq)
  rwa [List.length_replicate, List.length_replicate] at hlength

theorem getElem?_crowd {n i : Nat} (h : i < n) :
    (crowd n)[i]? = some (String.ofList (List.replicate i 'a')) := by
  rw [crowd, List.getElem?_map, List.getElem?_range h]
  rfl

/-- where the index is zero again it selects the first string -/
theorem not_returned_of_crowd {n k : Nat} (h : k < n) (hpos : 0 < k) (hk : UInt32.ofNat k = 0) :
    ¬List.Forall₂ (Returned ((ofFile none).calls ((crowd n).map .addSource)).2.build.sources)
      (((crowd n).map Call.addSource).map Call.source?)
      ((ofFile none).calls ((crowd n).map .addSource)).1 := by
  have hnodup : ((ofFile none).sources ++ crowd n).Nodup := nodup_crowd n
  obtain ⟨hsources, hanswers⟩ := calls_addSource (ofFile none) hnodup
  have hasked : (((crowd n).map Call.addSource).map Call.source?)[k]?
      = some (some (String.ofList (List.replicate k 'a'))) := by
    rw [List.getElem?_map, List.getElem?_map, getElem?_crowd h]
    rfl
  have hlen : (crowd n).length = n := by rw [crowd, List.length_map, List.length_range]
  have hanswer : ((ofFile none).calls ((crowd n).map .addSource)).1[k]? = some (some 0) := by
    rw [hanswers, hlen, List.getElem?_map, List.getElem?_range' h, Option.map_some, Nat.one_mul]
    exact congrArg (fun i => some (some i)) ((congrArg UInt32.ofNat (Nat.zero_add k)).trans hk)
  have hfirst : ((ofFile none).calls ((crowd n).map .addSource)).2.build.sources[0]? = some "" :=
    (congrArg (·[0]?) hsources).trans (getElem?_crowd (Nat.zero_lt_of_lt h))
  intro hall
  obtain ⟨hlt, hget⟩ := List.getElem?_eq_some_iff.mp hasked
  obtain ⟨hlt', hget'⟩ := List.getElem?_eq_some_iff.mp hanswer
  obtain ⟨i, hi, hselects⟩ := hall.get hlt hlt' _ hget
  obtain rfl : 0 = i := Option.some.inj (hget'.symm.trans hi)
  have hsame : "" = String.ofList (List.replicate k 'a') :=
    Option.some.inj (hfirst.symm.trans hselects)
  have hnil : [] = List.replicate k 'a' := String.ofList_injective hsame
  exact Nat.ne_of_gt hpos ((List.replicate_eq_nil_iff 'a').mp hnil.symm)

/-- **There are only `2 ^ 32` indices**: one string more is given the index of another one. -/
theorem crowd_not_returned :
    let cs := (crowd (2 ^ 32 + 1)).map Call.addSource
    ¬List.Forall₂ (Returned ((ofFile none).calls cs).2.build.sources) (cs.map Call.source?)
      ((ofFile none).calls cs).1 :=
  not_returned_of_crowd (Nat.lt_succ_self (2 ^ 32)) (by decide) (by decide)

end MapBuilder

end AnfWasm
