import AnfWasm.Emission.Basic
import AnfWasm.Proofs.Lowering.Encoding
import AnfWasm.Proofs.SourceMap.Builder
import AnfWasm.Proofs.Wasm.Offsets
import Mathlib.Data.List.Forall2

/-!
# The source map describes the module

The source map of a module has one mapping per function that has a span.  `Maps` says what the
mapping of a function is, and `AddsMappings` that the mappings of a list of functions were added; a
name that is added later does not change the index of another one.

The bodies of functions lie one after the other, so the mappings are sorted as they are added, and
a decoder of mappings reads them in this order.  It finds the positions at which a decoder of
modules finds the bodies.
-/

namespace AnfWasm

open Wasm

namespace Emission

/-- the mapping of a function, with the names of the map -/
def Maps (source : UInt32) (names : List String) (f : FuncOffset) (m : Mapping) : Prop :=
  ∃ span i, f.span = some span ∧ names[i.toNat]? = some f.name ∧
    m = ⟨⟨0, f.bodyOffset⟩, source, span.start, some i⟩

theorem Maps.mono {source : UInt32} {names more : List String} {f : FuncOffset} {m : Mapping}
    (h : Maps source names f m) (hp : names <+: more) : Maps source more f m := by
  obtain ⟨span, i, hspan, hname, rfl⟩ := h
  exact ⟨span, i, hspan, Lowering.getElem?_of_prefix hp hname, rfl⟩

/-- `b'` is `b` with the mappings of the functions that have a span. -/
structure AddsMappings (source : UInt32) (fs : List FuncOffset) (b b' : MapBuilder) : Prop where
  sources : b'.sources = b.sources
  names : b.names <+: b'.names
  mappings : ∃ ms, b'.mappings = b.mappings ++ ms ∧
    List.Forall₂ (Maps source b'.names) (fs.filter (·.span.isSome)) ms

theorem addFunctions_adds {source : UInt32} {fs : List FuncOffset} {b : MapBuilder}
    (h : b.names.length + fs.length ≤ 2 ^ 32) :
    AddsMappings source fs b (addFunctions source b fs) := by
  induction fs generalizing b with
  | nil => exact ⟨rfl, List.prefix_rfl, [], (List.append_nil _).symm, .nil⟩
  | cons f fs ih =>
    rw [List.length_cons] at h
    rw [addFunctions]
    cases hspan : f.span with
    | none =>
      obtain ⟨hsources, hnames, ms, hms, hmaps⟩ := ih (b := b) (by omega)
      refine ⟨hsources, hnames, ms, hms, ?_⟩
      rwa [List.filter_cons_of_neg (by simp [hspan])]
    | some span =>
      have hlen := MapBuilder.length_intern_le b.names f.name
      have hindex : MapBuilder.Selects (MapBuilder.intern b.names f.name).2
          (MapBuilder.intern b.names f.name).1 f.name :=
        MapBuilder.selects_intern List.prefix_rfl (by omega)
      have hlen₁ : (b.addName f.name).2.names.length + fs.length ≤ 2 ^ 32 := by
        show (MapBuilder.intern b.names f.name).2.length + _ ≤ _
        omega
      obtain ⟨hsources, hnames, ms, hms, hmaps⟩ := ih (b := (b.addName f.name).2.addMapping
        ⟨⟨0, f.bodyOffset⟩, source, span.start, some (b.addName f.name).1⟩) hlen₁
      refine ⟨hsources, (MapBuilder.prefix_intern _ _).trans hnames, _ :: ms,
        hms.trans (List.append_assoc _ _ _), ?_⟩
      rw [List.filter_cons_of_pos (by simp [hspan])]
      exact .cons (Maps.mono ⟨span, _, hspan, hindex, rfl⟩ hnames) hmaps

theorem zip_bodies (m : Module) (url : Option String) :
    m.functions.zip (m.contents url).bodies =
      (placed m).map fun (f, s) => (f, ⟨s, f.locals, f.code⟩) := by
  have h : ∀ (fs : List FuncDef) (pos : Nat), fs.zip (Decoder.bodyEntries pos fs) =
      (fs.zip (Binary.bodyStarts pos fs)).map fun (f, s) => (f, ⟨s, f.locals, f.code⟩) := by
    intro fs
    induction fs with
    | nil => exact fun _ => rfl
    | cons f fs ih => exact fun _ => congrArg (_ :: ·) (ih _)
  exact h m.functions m.codeStart

/-! ### the map -/

theorem generated_of_maps {source : UInt32} {names : List String} {fs : List FuncOffset}
    {ms : List Mapping} (h : List.Forall₂ (Maps source names) fs ms) :
    ms.map (·.generated) = fs.map fun f => ⟨0, f.bodyOffset⟩ := by
  induction h with
  | nil => rfl
  | cons hm _ ih =>
    obtain ⟨span, i, -, -, rfl⟩ := hm
    exact congrArg (_ :: ·) ih

theorem sorted_of_maps {source : UInt32} {names : List String} {fs : List FuncOffset}
    {ms : List Mapping} (h : List.Forall₂ (Maps source names) fs ms)
    (hp : fs.Pairwise fun f g => f.bodyOffset ≤ g.bodyOffset) : SourceMap.Sorted ms := by
  have hlocs : (fs.map fun f => (⟨0, f.bodyOffset⟩ : Loc)).Pairwise
      fun a b => (a.compare b).isLE = true :=
    List.pairwise_map.mpr (hp.imp fun hle => Std.isLE_compare.mpr hle)
  rw [← generated_of_maps h, List.pairwise_map] at hlocs
  exact hlocs

/-- the segment tells where the body of the function is and where the function comes from -/
def Locates (names : List String) (f : FuncDef) (body : BodyEntry) (s : SourceMap.Segment) :
    Prop :=
  ∃ span i, f.span = some span ∧ names[i]? = some f.name ∧
    s = ⟨0, body.start, some ⟨0, span.start.line.toNat, span.start.column.toNat, some i⟩⟩

theorem sourceMapOf_some {m : Module} {source : String} (h : m.source = some source)
    (fs : List FuncOffset) (file : String) : (sourceMapOf m fs file).1 =
      (addFunctions 0 ⟨some file, [source], [], []⟩ fs).build := by
  unfold sourceMapOf
  rw [h]
  rfl

theorem sourceMapOf_none {m : Module} (h : m.source = none) (fs : List FuncOffset)
    (file : String) : (sourceMapOf m fs file).1.mappings = "" := by
  unfold sourceMapOf
  rw [h]
  show String.ofList (SourceMap.segments .start (List.mergeSort [] _)) = ""
  rw [List.mergeSort_nil]
  rfl

theorem length_functions_le {m : Module} {url : Option String}
    (hsize : (m.encode url).bytes.length < 2 ^ 32) : (m.encode url).functions.length ≤ 2 ^ 32 := by
  have hcount := Decoder.functions_le_section m
  rw [Decoder.encode_bytes] at hsize
  rw [functions_encode, List.length_map, placed, List.length_zip, Decoder.length_bodyStarts,
    Nat.min_self]
  simp only [List.length_append] at hsize
  omega

theorem mappings_build {b : MapBuilder} (h : SourceMap.Sorted b.mappings) :
    SourceMap.decode b.build.mappings = some (b.mappings.map SourceMap.segmentOf) := by
  rw [b.decode_build, List.mergeSort_of_pairwise h]

/-- the bodies that a decoder finds are those that the mappings point at -/
theorem locates_of_maps {m : Module} {url : Option String}
    (hsize : (m.encode url).bytes.length < 2 ^ 32) {names : List String} {ms : List Mapping}
    (h : List.Forall₂ (Maps 0 names) ((m.encode url).functions.filter (·.span.isSome)) ms) :
    List.Forall₂ (fun x s => Locates names x.1 x.2 s)
      ((m.functions.zip (m.contents url).bodies).filter (·.1.span.isSome))
      (ms.map SourceMap.segmentOf) := by
  rw [functions_encode, List.filter_map, List.forall₂_map_left_iff] at h
  rw [zip_bodies, List.filter_map, List.forall₂_map_left_iff, List.forall₂_map_right_iff]
  have hlt : ∀ x ∈ (placed m).filter (·.1.span.isSome), x.2 < 2 ^ 32 :=
    fun x hx => placed_lt hsize (List.mem_of_mem_filter hx)
  refine ((List.forall₂_and_left _ _).mpr ⟨hlt, h⟩).imp ?_
  rintro ⟨f, s⟩ mapping ⟨hs, span, i, hspan, hname, rfl⟩
  refine ⟨span, i.toNat, hspan, hname, ?_⟩
  simpa [SourceMap.segmentOf] using hs

/-- **The source map describes the module**: decoding the map gives one segment per function that
has a span, in order, and decoding the module finds the body of the function there.  Each segment
names the function and the start of its span.  Without a source file there are no mappings. -/
theorem sourceMapOf_describes {p : Program} {m : Module} (hm : p.lower.1 = .ok m) (file : String)
    (hsize : (m.encode (some (file ++ ".map"))).bytes.length < 2 ^ 32) :
    let encoded := m.encode (some (file ++ ".map"))
    let map := (sourceMapOf m encoded.functions file).1
    (m.source = none → map.mappings = "") ∧
    ∀ source, m.source = some source → map.sources = [source] ∧
      ∃ d segments, Wasm.decode encoded.bytes = some d ∧ d.bodies.length = m.functions.length ∧
        SourceMap.decode map.mappings = some segments ∧
        List.Forall₂ (fun x s => Locates map.names x.1 x.2 s)
          ((m.functions.zip d.bodies).filter (·.1.span.isSome)) segments := by
  intro encoded map
  obtain ⟨cs, h⟩ := Lowering.lower_ok hm
  have hdecode := Module.decode_encode_contents (h.inRange (Lowering.lower_typed hm) hsize) hsize
  refine ⟨fun hnone => sourceMapOf_none hnone _ file, fun source hsource => ?_⟩
  have hadds : AddsMappings 0 encoded.functions ⟨some file, [source], [], []⟩ _ :=
    addFunctions_adds (by simpa using length_functions_le hsize)
  obtain ⟨hsources, -, ms, hms, hmaps⟩ := hadds
  rw [List.nil_append] at hms
  have hsorted := sorted_of_maps hmaps (((pairwise_offsets hsize).imp UInt32.le_of_lt).filter _)
  rw [← hms] at hsorted
  have hmap : map = _ := sourceMapOf_some hsource encoded.functions file
  rw [hmap]
  refine ⟨hsources, m.contents _, _, hdecode, Decoder.length_bodyEntries _ _,
    mappings_build hsorted, ?_⟩
  rw [hms]
  exact locates_of_maps hsize hmaps

/-- two functions of one name, and one between them that has no span -/
def echo : Program where
  source := some "echo.txt"
  imports := []
  functions := [
    ⟨⟨"f", 0⟩, [⟨"a", 1⟩], .comp (.imm (.id ⟨"a", 1⟩)), true, some ⟨⟨3, 1⟩, ⟨4, 0⟩⟩⟩,
    ⟨⟨"g", 2⟩, [], .comp (.imm .unit), false, none⟩,
    ⟨⟨"f", 3⟩, [], .comp (.call ⟨"f", 0⟩ [.int 500]), false, some ⟨⟨1, 7⟩, ⟨2, 0⟩⟩⟩]
  body := .comp (.call ⟨"f", 3⟩ [])

theorem sourceMapOf_describes_echo : ∃ m, echo.lower.1 = .ok m ∧
    (m.encode (some ("echo.wasm" ++ ".map"))).bytes.length < 2 ^ 32 ∧
    m.source = some "echo.txt" ∧
    ∃ d segments, Wasm.decode (m.encode (some ("echo.wasm" ++ ".map"))).bytes = some d ∧
      SourceMap.decode (sourceMapOf m (m.encode (some ("echo.wasm" ++ ".map"))).functions
        "echo.wasm").1.mappings = some segments ∧
      List.Forall₂ (fun x s => Locates (sourceMapOf m
          (m.encode (some ("echo.wasm" ++ ".map"))).functions "echo.wasm").1.names x.1 x.2 s)
        ((m.functions.zip d.bodies).filter (·.1.span.isSome)) segments := by
  obtain ⟨m, hm, hsize, hsource⟩ : ∃ m, echo.lower.1 = .ok m ∧
      (m.encode (some ("echo.wasm" ++ ".map"))).bytes.length < 2 ^ 32 ∧
      m.source = some "echo.txt" := ⟨_, rfl, by decide +kernel, rfl⟩
  obtain ⟨-, d, segments, hd, -, hsegments, hall⟩ :=
    (sourceMapOf_describes hm "echo.wasm" hsize).2 _ hsource
  exact ⟨m, hm, hsize, hsource, d, segments, hd, hsegments, hall⟩

end Emission

end AnfWasm
