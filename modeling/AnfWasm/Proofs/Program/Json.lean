import AnfWasm.Program.Json
import AnfWasm.Proofs.Json.Mirror
import AnfWasm.Proofs.Json.Text

/-!
# Programs read back

Every reader of `AnfWasm.Program.Json` mirrors its writer, up to `Program.mirrors`.  Reading back is
by induction on the syntax, and how deep a program is that was read from any value is by induction
on the allowance.

With the text of `AnfWasm.Proofs.Json.Text` this gives `Program.ofText?_toText`: a program is read
back from its text unless the text nests too deep, and that cannot happen to a program that was
itself read from a text.
-/

namespace AnfWasm

/-! ### records without recursion -/

theorem Loc.mirrors : Json.Mirrors Loc.toJson Loc.ofJson? where
  back n l := by
    cases n with
    | zero => simp [ofJson?, toJson]
    | succ n => simp [ofJson?, toJson, Json.record, Json.single?]
  fits {n j l} h := by
    cases n with
    | zero => exact absurd h (by simp [ofJson?])
    | succ n => simp [toJson]

theorem Span.mirrors : Json.Mirrors Span.toJson Span.ofJson? where
  back n s := by
    cases n with
    | zero => simp [ofJson?, toJson]
    | succ n =>
      simp [ofJson?, toJson, Json.record, Json.single?, Loc.mirrors.back, Json.ite_bind, ite_and]
  fits {n j s} h := by
    cases n with
    | zero => exact absurd h (by simp [ofJson?])
    | succ n =>
      obtain ⟨fields, -, h⟩ := Option.bind_eq_some_iff.mp h
      split at h
      · obtain ⟨start, hstart, h⟩ := Option.bind_eq_some_iff.mp h
        obtain ⟨stop, hstop, h⟩ := Option.bind_eq_some_iff.mp h
        obtain rfl := Option.some.inj h
        simp [toJson, Loc.mirrors.fits hstart, Loc.mirrors.fits hstop]
      · exact absurd h (by simp)

theorem Ident.mirrors : Json.Mirrors Ident.toJson Ident.ofJson? where
  back n x := by
    cases n with
    | zero => simp [ofJson?, toJson]
    | succ n => simp [ofJson?, toJson, Json.record, Json.single?, Json.str?]
  fits {n j x} h := by
    cases n with
    | zero => exact absurd h (by simp [ofJson?])
    | succ n => simp [toJson]

theorem Constant.mirrors : Json.Mirrors Constant.toJson Constant.ofJson? where
  back n c := by
    cases c with
    | int k => cases n <;> simp [ofJson?, toJson, Json.bare?]
    | bool b => cases n <;> simp [ofJson?, toJson, Json.bare?, Json.bool?]
    | unit => simp [ofJson?, toJson, Json.bare?]
  fits {n j c} h := by
    unfold ofJson? at h
    split at h
    · obtain ⟨k, -, rfl⟩ := Option.map_eq_some_iff.mp h
      simp [toJson]
    · obtain ⟨b, -, rfl⟩ := Option.map_eq_some_iff.mp h
      simp [toJson]
    · split at h
      · obtain rfl := Option.some.inj h
        simp [toJson]
      · exact absurd h (by simp)

theorem Imm.mirrors : Json.Mirrors Imm.toJson Imm.ofJson? where
  back n a := by
    cases n with
    | zero => cases a <;> simp [ofJson?, toJson]
    | succ n => cases a <;> simp [ofJson?, toJson, Ident.mirrors.back, Constant.mirrors.back]
  fits {n j a} h := by
    unfold ofJson? at h
    split at h
    · obtain ⟨x, hx, rfl⟩ := Option.map_eq_some_iff.mp h
      simpa [toJson] using Ident.mirrors.fits hx
    · obtain ⟨c, hc, rfl⟩ := Option.map_eq_some_iff.mp h
      simpa [toJson] using Constant.mirrors.fits hc
    · exact absurd h (by simp)

theorem Prim1.mirrors : Json.Mirrors Prim1.toJson Prim1.ofJson? where
  back n op := by cases op <;> simp [ofJson?, toJson, Json.bare?, ofName?]
  fits {n j op} _ := by cases op <;> simp [toJson]

theorem Prim2.mirrors : Json.Mirrors Prim2.toJson Prim2.ofJson? where
  back n op := by cases op <;> simp [ofJson?, toJson, Json.bare?, ofName?, name]
  fits {n j op} _ := by simp [toJson]

theorem LetKind.mirrors : Json.Mirrors LetKind.toJson LetKind.ofJson? where
  back n kind := by cases kind <;> simp [ofJson?, toJson, Json.bare?, ofName?]
  fits {n j kind} _ := by cases kind <;> simp [toJson]

theorem Span.toJson_ne_null (s : Span) : s.toJson ≠ .null := by simp [toJson]

/-! ### computations and expressions -/

theorem Binding.record_toJson (id : Ident) (comp : Comp) (span : Option Span) :
    (Binding.toJson ⟨id, comp, span⟩).record ["id", "comp", "span"] =
      some [some id.toJson, some comp.toJson, span.map Span.toJson] := by
  cases span <;> rfl

theorem Binding.depth_toJson_le {id : Ident} {comp : Comp} {span : Option Span} {n : Nat} :
    (Binding.toJson ⟨id, comp, span⟩).depth ≤ n + 1 ↔
      id.toJson.depth ≤ n ∧ comp.toJson.depth ≤ n ∧ ∀ s ∈ span, s.toJson.depth ≤ n := by
  cases span <;> simp [Binding.toJson, Json.fieldIf]

mutual

theorem Comp.ofJson?_toJson (c : Comp) (n : Nat) :
    Comp.ofJson? n c.toJson = if c.toJson.depth ≤ n then some c else none := by
  match n, c with
  | 0, c => cases c <;> simp [Comp.ofJson?, Comp.toJson]
  | n + 1, .imm a => simp [Comp.ofJson?, Comp.toJson, Imm.mirrors.back]
  | n + 1, .tuple args => simp [Comp.ofJson?, Comp.toJson, Imm.mirrors.list_back]
  | n + 1, .boxNew a => simp [Comp.ofJson?, Comp.toJson, Imm.mirrors.back]
  | n + 1, .unbox a => simp [Comp.ofJson?, Comp.toJson, Imm.mirrors.back]
  | n + 1, .fail code => simp [Comp.ofJson?, Comp.toJson]
  -- the others have an array or an object inside, and one step is not enough for them
  | 1, .prim1 _ _ => simp [Comp.ofJson?, Comp.toJson]
  | 1, .prim2 _ _ _ => simp [Comp.ofJson?, Comp.toJson]
  | 1, .adt _ _ _ => simp [Comp.ofJson?, Comp.toJson]
  | 1, .tupleGet _ _ => simp [Comp.ofJson?, Comp.toJson]
  | 1, .boxSet _ _ => simp [Comp.ofJson?, Comp.toJson]
  | 1, .call _ _ => simp [Comp.ofJson?, Comp.toJson]
  | 1, .callForeign _ _ => simp [Comp.ofJson?, Comp.toJson]
  | 1, .branch _ _ _ => simp [Comp.ofJson?, Comp.toJson]
  | n + 2, .prim1 op a =>
    simp [Comp.ofJson?, Comp.toJson, Prim1.mirrors.back, Imm.mirrors.back, Json.ite_bind, ite_and]
  | n + 2, .prim2 op a b =>
    simp [Comp.ofJson?, Comp.toJson, Prim2.mirrors.back, Imm.mirrors.back, Json.ite_bind, ite_and]
  | n + 2, .adt typeTag variant args =>
    simp [Comp.ofJson?, Comp.toJson, Json.record, Json.single?, Imm.mirrors.list_back,
      Json.ite_bind]
  | n + 2, .tupleGet index a => simp [Comp.ofJson?, Comp.toJson, Imm.mirrors.back, Json.ite_bind]
  | n + 2, .boxSet cell value =>
    simp [Comp.ofJson?, Comp.toJson, Imm.mirrors.back, Json.ite_bind, ite_and]
  | n + 2, .call f args =>
    simp [Comp.ofJson?, Comp.toJson, Ident.mirrors.back, Imm.mirrors.list_back, Json.ite_bind,
      ite_and]
  | n + 2, .callForeign f args =>
    simp [Comp.ofJson?, Comp.toJson, Ident.mirrors.back, Imm.mirrors.list_back, Json.ite_bind,
      ite_and]
  | n + 2, .branch cond thenArm elseArm =>
    simp [Comp.ofJson?, Comp.toJson, Imm.mirrors.back, thenArm.ofJson?_toJson n,
      elseArm.ofJson?_toJson n, Json.ite_bind, ite_and]

theorem Binding.ofJson?_toJson (b : Binding) (n : Nat) :
    Binding.ofJson? n b.toJson = if b.toJson.depth ≤ n then some b else none := by
  match n, b with
  | 0, ⟨_, _, _⟩ => simp [Binding.ofJson?, Binding.toJson]
  | n + 1, ⟨id, comp, span⟩ =>
    have hspan := Span.mirrors.optional Span.toJson_ne_null n span
    rw [Binding.ofJson?, Binding.record_toJson]
    simp [Ident.mirrors.back, comp.ofJson?_toJson n, hspan, Binding.depth_toJson_le, Json.ite_bind,
      ite_and]

theorem Binding.mapM_toJsons (bs : List Binding) (n : Nat) :
    (Binding.toJsons bs).mapM (Binding.ofJson? n) =
      if ∀ j ∈ Binding.toJsons bs, j.depth ≤ n then some bs else none := by
  match bs with
  | [] => simp [Binding.toJsons]
  | b :: bs =>
    simp [Binding.toJsons, b.ofJson?_toJson n, Binding.mapM_toJsons bs n, Json.ite_bind, ite_and]

theorem Expr.ofJson?_toJson (e : Expr) (n : Nat) :
    Expr.ofJson? n e.toJson = if e.toJson.depth ≤ n then some e else none := by
  match n, e with
  | 0, e => cases e <;> simp [Expr.ofJson?, Expr.toJson]
  | n + 1, .comp comp => simp [Expr.ofJson?, Expr.toJson, comp.ofJson?_toJson n]
  | 1, .seq _ _ => simp [Expr.ofJson?, Expr.toJson]
  | n + 2, .seq comp rest =>
    simp [Expr.ofJson?, Expr.toJson, comp.ofJson?_toJson n, rest.ofJson?_toJson n, Json.ite_bind,
      ite_and]
  | 1, .letIn _ _ _ => simp [Expr.ofJson?, Expr.toJson]
  | 2, .letIn kind bs body => simp [Expr.ofJson?, Expr.toJson]
  | n + 3, .letIn kind bs body =>
    simp [Expr.ofJson?, Expr.toJson, Json.record, Json.single?, Json.orElse, Json.items?,
      LetKind.mirrors.back, Binding.mapM_toJsons bs n, body.ofJson?_toJson (n + 1), Json.ite_bind,
      ite_and]

end

theorem LetKind.depth_toJson (kind : LetKind) : kind.toJson.depth = 0 := by
  cases kind <;> rfl

theorem Binding.toJsons_eq_map (bs : List Binding) :
    Binding.toJsons bs = bs.map Binding.toJson := by
  induction bs with
  | nil => rfl
  | cons b bs ih => rw [Binding.toJsons, ih, List.map_cons]

mutual

theorem Comp.depth_le_of_ofJson? {n : Nat} {j : Json} {c : Comp} (h : Comp.ofJson? n j = some c) :
    c.toJson.depth ≤ n := by
  unfold Comp.ofJson? at h
  split at h
  · rename_i n tag j
    split at h
    · obtain ⟨a, ha, rfl⟩ := Option.map_eq_some_iff.mp h
      simpa [Comp.toJson] using Imm.mirrors.fits ha
    · obtain ⟨op, hop, h⟩ := Option.bind_eq_some_iff.mp h
      obtain ⟨a, ha, h⟩ := Option.bind_eq_some_iff.mp h
      obtain rfl := Option.some.inj h
      simp [Comp.toJson, Prim1.mirrors.fits hop, Imm.mirrors.fits ha]
    · obtain ⟨op, hop, h⟩ := Option.bind_eq_some_iff.mp h
      obtain ⟨a, ha, h⟩ := Option.bind_eq_some_iff.mp h
      obtain ⟨b, hb, h⟩ := Option.bind_eq_some_iff.mp h
      obtain rfl := Option.some.inj h
      simp [Comp.toJson, Prim2.mirrors.fits hop, Imm.mirrors.fits ha, Imm.mirrors.fits hb]
    · obtain ⟨fields, -, h⟩ := Option.bind_eq_some_iff.mp h
      split at h
      · obtain ⟨typeTag, -, h⟩ := Option.bind_eq_some_iff.mp h
        obtain ⟨variant, -, h⟩ := Option.bind_eq_some_iff.mp h
        obtain ⟨args, hargs, h⟩ := Option.bind_eq_some_iff.mp h
        obtain rfl := Option.some.inj h
        simpa [Comp.toJson] using Imm.mirrors.list_fits hargs
      · exact absurd h (by simp)
    · obtain ⟨args, hargs, rfl⟩ := Option.map_eq_some_iff.mp h
      simpa [Comp.toJson] using Imm.mirrors.list_fits hargs
    · obtain ⟨index, -, h⟩ := Option.bind_eq_some_iff.mp h
      obtain ⟨a, ha, h⟩ := Option.bind_eq_some_iff.mp h
      obtain rfl := Option.some.inj h
      simpa [Comp.toJson] using Imm.mirrors.fits ha
    · obtain ⟨a, ha, rfl⟩ := Option.map_eq_some_iff.mp h
      simpa [Comp.toJson] using Imm.mirrors.fits ha
    · obtain ⟨a, ha, rfl⟩ := Option.map_eq_some_iff.mp h
      simpa [Comp.toJson] using Imm.mirrors.fits ha
    · obtain ⟨cell, hcell, h⟩ := Option.bind_eq_some_iff.mp h
      obtain ⟨value, hvalue, h⟩ := Option.bind_eq_some_iff.mp h
      obtain rfl := Option.some.inj h
      simp [Comp.toJson, Imm.mirrors.fits hcell, Imm.mirrors.fits hvalue]
    · obtain ⟨f, hf, h⟩ := Option.bind_eq_some_iff.mp h
      obtain ⟨args, hargs, h⟩ := Option.bind_eq_some_iff.mp h
      obtain rfl := Option.some.inj h
      simp [Comp.toJson, Ident.mirrors.fits hf, Imm.mirrors.list_fits hargs]
    · obtain ⟨f, hf, h⟩ := Option.bind_eq_some_iff.mp h
      obtain ⟨args, hargs, h⟩ := Option.bind_eq_some_iff.mp h
      obtain rfl := Option.some.inj h
      simp [Comp.toJson, Ident.mirrors.fits hf, Imm.mirrors.list_fits hargs]
    · obtain ⟨cond, hcond, h⟩ := Option.bind_eq_some_iff.mp h
      obtain ⟨thenArm, hthen, h⟩ := Option.bind_eq_some_iff.mp h
      obtain ⟨elseArm, helse, h⟩ := Option.bind_eq_some_iff.mp h
      obtain rfl := Option.some.inj h
      simp [Comp.toJson, Imm.mirrors.fits hcond, Expr.depth_le_of_ofJson? hthen,
        Expr.depth_le_of_ofJson? helse]
    · obtain ⟨code, -, rfl⟩ := Option.map_eq_some_iff.mp h
      simp [Comp.toJson]
    · exact absurd h (by simp)
  · exact absurd h (by simp)
termination_by n

theorem Binding.depth_le_of_ofJson? {n : Nat} {j : Json} {b : Binding}
    (h : Binding.ofJson? n j = some b) : b.toJson.depth ≤ n := by
  unfold Binding.ofJson? at h
  split at h
  · obtain ⟨fields, -, h⟩ := Option.bind_eq_some_iff.mp h
    split at h
    · obtain ⟨id, hid, h⟩ := Option.bind_eq_some_iff.mp h
      obtain ⟨comp, hcomp, h⟩ := Option.bind_eq_some_iff.mp h
      obtain ⟨span, hspan, h⟩ := Option.bind_eq_some_iff.mp h
      obtain rfl := Option.some.inj h
      exact Binding.depth_toJson_le.mpr ⟨Ident.mirrors.fits hid, Comp.depth_le_of_ofJson? hcomp,
        Span.mirrors.optional_fits hspan⟩
    · exact absurd h (by simp)
  · exact absurd h (by simp)
termination_by n

theorem Expr.depth_le_of_ofJson? {n : Nat} {j : Json} {e : Expr} (h : Expr.ofJson? n j = some e) :
    e.toJson.depth ≤ n := by
  unfold Expr.ofJson? at h
  split at h
  · rename_i n tag j
    split at h
    · rename_i m
      obtain ⟨fields, -, h⟩ := Option.bind_eq_some_iff.mp h
      split at h
      · obtain ⟨kind, -, h⟩ := Option.bind_eq_some_iff.mp h
        obtain ⟨items, -, h⟩ := Option.bind_eq_some_iff.mp h
        obtain ⟨bs, hbs, h⟩ := Option.bind_eq_some_iff.mp h
        obtain ⟨body, hbody, h⟩ := Option.bind_eq_some_iff.mp h
        obtain rfl := Option.some.inj h
        have hbs' : ∀ b ∈ bs, b.toJson.depth ≤ m := by
          intro b hb
          obtain ⟨j, -, hj⟩ := Json.mem_of_mapM hbs hb
          exact Binding.depth_le_of_ofJson? hj
        have hbody := Expr.depth_le_of_ofJson? hbody
        simpa [Expr.toJson, Binding.toJsons_eq_map, kind.depth_toJson, hbody] using hbs'
      · exact absurd h (by simp)
    · obtain ⟨comp, hcomp, h⟩ := Option.bind_eq_some_iff.mp h
      obtain ⟨rest, hrest, h⟩ := Option.bind_eq_some_iff.mp h
      obtain rfl := Option.some.inj h
      simp [Expr.toJson, Comp.depth_le_of_ofJson? hcomp, Expr.depth_le_of_ofJson? hrest]
    · obtain ⟨comp, hcomp, rfl⟩ := Option.map_eq_some_iff.mp h
      simpa [Expr.toJson] using Comp.depth_le_of_ofJson? hcomp
    · exact absurd h (by simp)
  · exact absurd h (by simp)
termination_by n

end

theorem Expr.mirrors : Json.Mirrors Expr.toJson Expr.ofJson? where
  back n e := e.ofJson?_toJson n
  fits := Expr.depth_le_of_ofJson?

/-! ### programs -/

theorem Import.mirrors : Json.Mirrors Import.toJson Import.ofJson? where
  back n i := by
    cases n with
    | zero => simp [ofJson?, toJson]
    | succ n =>
      simp [ofJson?, toJson, Json.record, Json.single?, Json.str?, Ident.mirrors.back,
        Json.ite_bind]
  fits {n j i} h := by
    cases n with
    | zero => exact absurd h (by simp [ofJson?])
    | succ n =>
      obtain ⟨fields, -, h⟩ := Option.bind_eq_some_iff.mp h
      split at h
      · obtain ⟨id, hid, h⟩ := Option.bind_eq_some_iff.mp h
        obtain ⟨module, -, h⟩ := Option.bind_eq_some_iff.mp h
        obtain ⟨name, -, h⟩ := Option.bind_eq_some_iff.mp h
        obtain ⟨arity, -, h⟩ := Option.bind_eq_some_iff.mp h
        obtain rfl := Option.some.inj h
        simpa [toJson] using Ident.mirrors.fits hid
      · exact absurd h (by simp)

theorem Func.record_toJson (f : Func) :
    f.toJson.record ["id", "params", "body", "export", "span"] =
      some [some f.id.toJson, some (.arr (f.params.map Ident.toJson)), some f.body.toJson,
        some (.bool f.exported), f.span.map Span.toJson] := by
  obtain ⟨id, params, body, exported, span⟩ := f
  cases span <;> rfl

theorem Func.depth_toJson_le {f : Func} {n : Nat} : f.toJson.depth ≤ n + 1 ↔
    f.id.toJson.depth ≤ n ∧ (Json.arr (f.params.map Ident.toJson)).depth ≤ n ∧
      f.body.toJson.depth ≤ n ∧ ∀ s ∈ f.span, s.toJson.depth ≤ n := by
  obtain ⟨id, params, body, exported, span⟩ := f
  cases span <;> simp [toJson, Json.fieldIf]

theorem Func.mirrors : Json.Mirrors Func.toJson Func.ofJson? where
  back n f := by
    cases n with
    | zero => simp [ofJson?, toJson]
    | succ n =>
      have hspan := Span.mirrors.optional Span.toJson_ne_null n f.span
      rw [ofJson?, record_toJson]
      simp [Json.bool?, Ident.mirrors.back, Ident.mirrors.list_back, Expr.mirrors.back, hspan,
        depth_toJson_le, Json.ite_bind, ite_and]
  fits {n j f} h := by
    cases n with
    | zero => exact absurd h (by simp [ofJson?])
    | succ n =>
      obtain ⟨fields, -, h⟩ := Option.bind_eq_some_iff.mp h
      split at h
      · obtain ⟨id, hid, h⟩ := Option.bind_eq_some_iff.mp h
        obtain ⟨params, hparams, h⟩ := Option.bind_eq_some_iff.mp h
        obtain ⟨body, hbody, h⟩ := Option.bind_eq_some_iff.mp h
        obtain ⟨exported, -, h⟩ := Option.bind_eq_some_iff.mp h
        obtain ⟨span, hspan, h⟩ := Option.bind_eq_some_iff.mp h
        obtain rfl := Option.some.inj h
        exact depth_toJson_le.mpr ⟨Ident.mirrors.fits hid, Ident.mirrors.list_fits hparams,
          Expr.mirrors.fits hbody, Span.mirrors.optional_fits hspan⟩
      · exact absurd h (by simp)

namespace Program

theorem record_toJson (p : Program) :
    p.toJson.record ["source", "imports", "functions", "body"] =
      some [p.source.map Json.str, some (.arr (p.imports.map Import.toJson)),
        some (.arr (p.functions.map Func.toJson)), some p.body.toJson] := by
  obtain ⟨source, imports, functions, body⟩ := p
  cases source <;> rfl

theorem depth_toJson_le {p : Program} {n : Nat} : p.toJson.depth ≤ n + 1 ↔
    (Json.arr (p.imports.map Import.toJson)).depth ≤ n ∧
      (Json.arr (p.functions.map Func.toJson)).depth ≤ n ∧ p.body.toJson.depth ≤ n := by
  obtain ⟨source, imports, functions, body⟩ := p
  cases source <;> simp [toJson, Json.fieldIf]

theorem read_source (source : Option String) :
    Json.orElse none (Json.nullable Json.str?) (source.map Json.str) = some source := by
  cases source <;> rfl

theorem mirrors : Json.Mirrors toJson ofJson? where
  back n p := by
    cases n with
    | zero => simp [ofJson?, toJson]
    | succ n =>
      rw [ofJson?, record_toJson]
      simp [read_source, Import.mirrors.list_back, Func.mirrors.list_back, Expr.mirrors.back,
        depth_toJson_le, Json.ite_bind, ite_and]
  fits {n j p} h := by
    cases n with
    | zero => exact absurd h (by simp [ofJson?])
    | succ n =>
      obtain ⟨fields, -, h⟩ := Option.bind_eq_some_iff.mp h
      split at h
      · obtain ⟨source, -, h⟩ := Option.bind_eq_some_iff.mp h
        obtain ⟨imports, himports, h⟩ := Option.bind_eq_some_iff.mp h
        obtain ⟨functions, hfunctions, h⟩ := Option.bind_eq_some_iff.mp h
        obtain ⟨body, hbody, h⟩ := Option.bind_eq_some_iff.mp h
        obtain rfl := Option.some.inj h
        -- the allowance is enough for an empty list, since there is a body
        have hn : n ≠ 0 := by
          rintro rfl
          exact absurd hbody (by simp [Expr.ofJson?])
        exact depth_toJson_le.mpr ⟨Import.mirrors.list_fits_of_orElse hn himports,
          Func.mirrors.list_fits_of_orElse hn hfunctions, Expr.mirrors.fits hbody⟩
      · exact absurd h (by simp)

theorem parse?_toText (p : Program) : Json.parse? p.toText = some p.toJson := by
  rw [Json.parse?, toText, Json.parse_compact]
  rfl

/-- **Programs are read back from their texts.**  Read without a limit, the text of a program gives
the program itself; read as a text from outside it gives the program if it nests at most 127
arrays and objects, and is refused if it nests more.  A program that was read from any text has a
text that is taken again. -/
theorem ofText?_toText (p : Program) :
    (∃ j, Json.parse? p.toText = some j ∧ ofValue? j = some p ∧
      ofText? p.toText = if j.depth ≤ 127 then some p else none) ∧
    ∀ text, ofText? text = some p → ofText? p.toText = some p := by
  have hread : ofText? p.toText = if p.toJson.depth ≤ 127 then some p else none := by
    rw [ofText?, parse?_toText]
    exact mirrors.back Json.textAllowance p
  refine ⟨⟨p.toJson, p.parse?_toText, ?_, hread⟩, fun text h => ?_⟩
  · rw [ofValue?, mirrors.back, if_pos (Nat.le_refl _)]
  · obtain ⟨j, -, hj⟩ := Option.bind_eq_some_iff.mp h
    exact hread.trans (if_pos (mirrors.fits hj))

/-- a text in short forms: arrays for records, nothing where there is a default, an unknown field,
and an object for a bare name -/
def terse : String :=
  "\x7b\"later\":[[\"\\ud800\"]],\"body\":\x7b\"Let\":[\"Rec\","
    ++ "[[[\"x\",4294967295],\x7b\"Fail\":0\x7d,null]],"
    ++ "\x7b\"Comp\":\x7b\"Imm\":\x7b\"Const\":\x7b\"Unit\":null\x7d\x7d\x7d\x7d]\x7d\x7d"

theorem ofText?_toText_terse : ∃ p, ofText? terse = some p ∧ ofText? p.toText = some p := by
  have h : (ofText? terse).isSome = true := by decide +kernel
  obtain ⟨p, hp⟩ := Option.isSome_iff_exists.mp h
  exact ⟨p, hp, (ofText?_toText p).2 terse hp⟩

end Program

end AnfWasm
