import AnfWasm.Lowering.Basic
import AnfWasm.Proofs.Actions
import AnfWasm.Proofs.Scope.Mentions
import AnfWasm.Proofs.Scope.Renaming
import AnfWasm.Proofs.Sharing.Renaming
import AnfWasm.Proofs.Sharing.Substitution
import AnfWasm.Wasm.Binary

/-!
# Lowering reads stamps only

Identifiers are only looked up, in the locals of a frame and among the callees, so lowering a
relabeled body gives the same code (`lowerExpr_carries`) and lowering a relabeled program the same
module (`Program.lower_mapIdents`).

With what is known of the check and of sharing, no stage tells programs apart that only differ in
the choice of stamps and in names: relabel the stamps of one of them, and without names the two are
equal.
-/

namespace AnfWasm

variable {ρ : Relabeling}

/-! ### mentions -/

theorem Imm.id?_mapIdent (φ : Ident → Ident) (a : Imm) : (a.mapIdent φ).id? = a.id?.map φ := by
  cases a <;> rfl

theorem Imm.filterMap_id?_mapIdent (φ : Ident → Ident) (args : List Imm) :
    (args.map (Imm.mapIdent φ)).filterMap Imm.id? = (args.filterMap Imm.id?).map φ := by
  rw [List.filterMap_map, List.map_filterMap]
  exact List.filterMap_congr fun a _ => a.id?_mapIdent φ

theorem Comp.named_mapIdents (φ : Ident → Ident) (c : Comp) :
    (c.mapIdents φ).named = c.named.map φ := by
  have hcallee : (c.mapIdents φ).callee?.toList = c.callee?.toList.map φ := by
    cases c <;> rfl
  rw [Comp.named, Comp.named, hcallee, Comp.operands_mapIdents, Imm.filterMap_id?_mapIdent,
    List.map_append]

mutual

theorem Comp.read_mapIdents (φ : Ident → Ident) (c : Comp) :
    (c.mapIdents φ).read Step.use? = (c.read Step.use?).map φ := by
  rw [Comp.read_use, Comp.read_use, Comp.named_mapIdents, List.map_append]
  match c with
  | .branch cond thenArm elseArm =>
    rw [Comp.mapIdents, Comp.flatMap_arms, Comp.flatMap_arms, thenArm.read_mapIdents φ,
      elseArm.read_mapIdents φ, ← List.map_append]
  | .imm _ | .prim1 _ _ | .prim2 _ _ _ | .adt _ _ _ | .tuple _ | .tupleGet _ _ | .boxNew _
  | .unbox _ | .boxSet _ _ | .call _ _ | .callForeign _ _ | .fail _ => rfl

theorem Binding.reads_mapIdents (φ : Ident → Ident) (bs : List Binding) :
    Binding.reads Step.use? (Binding.mapIdents φ bs) = (Binding.reads Step.use? bs).map φ := by
  match bs with
  | [] => rfl
  | ⟨id, c, span⟩ :: bs =>
    rw [Binding.mapIdents, selective_use.reads_cons, selective_use.reads_cons, c.read_mapIdents φ,
      Binding.reads_mapIdents φ bs, List.map_append]

theorem Expr.read_mapIdents (φ : Ident → Ident) (e : Expr) :
    (e.mapIdents φ).read Step.use? = (e.read Step.use?).map φ := by
  match e with
  | .letIn kind bs body =>
    rw [Expr.mapIdents, selective_use.read_letIn, selective_use.read_letIn,
      Binding.reads_mapIdents φ bs, body.read_mapIdents φ, List.map_append]
  | .seq c rest =>
    rw [Expr.mapIdents, selective_use.read_seq, selective_use.read_seq, c.read_mapIdents φ,
      rest.read_mapIdents φ, List.map_append]
  | .comp c =>
    rw [Expr.mapIdents, selective_use.read_tail, selective_use.read_tail, c.read_mapIdents φ]

end

namespace Lowering
open Wasm

theorem groupMention?_mapIdents (bs : List Binding) :
    groupMention? (Binding.mapIdents ρ.ident bs) =
      (groupMention? bs).map (Prod.map ρ.ident ρ.ident) := by
  have hgroup : (bs.map (Binding.mapIdent ρ.ident)).map (fun b => b.id.stamp) =
      (bs.map fun b => b.id.stamp).map ρ.stamp := by
    rw [List.map_map, List.map_map]
    exact List.map_congr_left fun b _ => ρ.stamp_ident b.id
  unfold groupMention?
  rw [Binding.mapIdents_eq_map, hgroup, List.findSome?_map, List.map_findSome?]
  refine congrArg (fun f => List.findSome? f bs) (funext fun b => ?_)
  have hmentions : (b.mapIdent ρ.ident).comp.mentions = b.comp.mentions.map ρ.ident :=
    b.comp.read_mapIdents ρ.ident
  have hcontains : ((fun x : Ident => ((bs.map fun b => b.id.stamp).map ρ.stamp).contains x.stamp) ∘
      ρ.ident) = fun x => (bs.map fun b => b.id.stamp).contains x.stamp := by
    funext x
    show List.contains _ (ρ.ident x).stamp = _
    rw [ρ.stamp_ident, ρ.contains_map]
  show Option.map _ (List.find? _ (b.mapIdent ρ.ident).comp.mentions) = _
  rw [hmentions, List.find?_map, hcontains, Option.map_map, Function.comp_apply, Option.map_map]
  rfl

/-! ### bodies -/

def Frame.relabel (ρ : Relabeling) (fr : Frame) : Frame :=
  { fr with slots := fr.slots.map (Prod.map ρ.stamp id) }

theorem Frame.bind_relabel (fr : Frame) (x : Ident) :
    (fr.relabel ρ).bind (ρ.ident x) = (fr.bind x).relabel ρ := by
  have hslot : ((ρ.ident x).stamp, fr.count) = (ρ.stamp x.stamp, fr.count) := by
    rw [ρ.stamp_ident]
  exact congrArg (fun e => Frame.mk (e :: fr.slots.map _) (fr.bind x).locals fr.failures) hslot

theorem Frame.ofParams_mapIdents (params : List Ident) :
    Frame.ofParams (params.map ρ.ident) = (Frame.ofParams params).relabel ρ := by
  have hall : ∀ fr : Frame, (params.map ρ.ident).foldl Frame.bind (fr.relabel ρ) =
      (params.foldl Frame.bind fr).relabel ρ := by
    induction params with
    | nil => exact fun _ => rfl
    | cons x params ih =>
      intro fr
      rw [List.map_cons, List.foldl_cons, List.foldl_cons, Frame.bind_relabel]
      exact ih (fr.bind x)
  exact hall .start

def Callees.relabel (ρ : Relabeling) (cs : Callees) : Callees := cs.map (Prod.map ρ.stamp id)

theorem Callees.lookup_relabel (cs : Callees) (x : Ident) :
    (Callees.relabel ρ cs).lookup (ρ.ident x).stamp = cs.lookup x.stamp := by
  rw [ρ.stamp_ident]
  exact ρ.lookup_map cs x.stamp

theorem lowerImm_carries (a : Imm) :
    Carries (Frame.relabel ρ) id (lowerImm a) (lowerImm (a.mapIdent ρ.ident)) := by
  cases a with
  | const c => exact carries_pure rfl
  | id x =>
    refine carries_get.bind fun fr => ?_
    have hslot : (fr.relabel ρ).slots.lookup (ρ.ident x).stamp = fr.slots.lookup x.stamp := by
      rw [ρ.stamp_ident]
      exact ρ.lookup_map fr.slots x.stamp
    rw [hslot]
    cases fr.slots.lookup x.stamp with
    | none => exact carries_throw _ _
    | some slot => exact carries_pure rfl

theorem lowerImms_carries (args : List Imm) : Carries (Frame.relabel ρ) id (lowerImms args)
    (lowerImms (args.map (Imm.mapIdent ρ.ident))) := by
  induction args with
  | nil => exact carries_pure rfl
  | cons a args ih =>
    apply (lowerImm_carries a).bind
    intro code
    apply ih.bind
    intro rest
    exact carries_pure rfl

def Field.mapIdent (φ : Ident → Ident) : Field → Field
  | .const n => .const n
  | .imm a => .imm (a.mapIdent φ)

theorem storeFields_carries (index : Nat) (fields : List Field) :
    Carries (Frame.relabel ρ) id (storeFields index fields)
      (storeFields index (fields.map (Field.mapIdent ρ.ident))) := by
  induction fields generalizing index with
  | nil => exact carries_pure rfl
  | cons f fields ih =>
    have hfield : Carries (Frame.relabel ρ) id (lowerField f)
        (lowerField (f.mapIdent ρ.ident)) := by
      cases f with
      | const n => exact carries_pure rfl
      | imm a => exact lowerImm_carries a
    apply hfield.bind
    intro value
    apply (ih (index + 1)).bind
    intro rest
    exact carries_pure rfl

theorem allocate_carries (fields : List Field) : Carries (Frame.relabel ρ) id (allocate fields)
    (allocate (fields.map (Field.mapIdent ρ.ident))) := by
  apply (storeFields_carries 0 fields).bind
  intro stores
  apply carries_pure
  rw [List.length_map]
  rfl

theorem tupleFields_mapIdent (φ : Ident → Ident) (args : List Imm) :
    tupleFields (args.map (Imm.mapIdent φ)) = (tupleFields args).map (Field.mapIdent φ) := by
  simp only [tupleFields, List.length_map, List.map_map, List.map_cons, Field.mapIdent]
  rfl

theorem adtFields_mapIdent (φ : Ident → Ident) (typeTag variant : UInt32) (args : List Imm) :
    adtFields typeTag variant (args.map (Imm.mapIdent φ)) =
      (adtFields typeTag variant args).map (Field.mapIdent φ) := by
  simp only [adtFields, List.length_map, List.map_map, List.map_cons, Field.mapIdent]
  rfl

theorem callee_carries (cs : Callees) (foreign : Bool) (f : Ident) (found : Nat) :
    Carries (Frame.relabel ρ) id (callee cs foreign f found)
      (callee (Callees.relabel ρ cs) foreign (ρ.ident f) found) := by
  unfold callee
  rw [Callees.lookup_relabel]
  cases cs.lookup f.stamp with
  | none => exact carries_throw _ _
  | some c =>
    dsimp only
    split
    · exact carries_throw _ _
    · split
      · exact carries_throw _ _
      · exact carries_pure rfl

theorem lowerCall_carries (cs : Callees) (foreign : Bool) (f : Ident) (args : List Imm) :
    Carries (Frame.relabel ρ) id (lowerCall cs foreign f args)
      (lowerCall (Callees.relabel ρ cs) foreign (ρ.ident f) (args.map (Imm.mapIdent ρ.ident))) := by
  unfold lowerCall
  rw [List.length_map]
  apply (callee_carries cs foreign f args.length).bind
  intro c
  apply (lowerImms_carries args).bind
  intro code
  exact carries_pure rfl

theorem checkGroup_carries (kind : LetKind) (bs : List Binding) :
    Carries (Frame.relabel ρ) id (checkGroup kind bs)
      (checkGroup kind (Binding.mapIdents ρ.ident bs)) := by
  unfold checkGroup
  rw [groupMention?_mapIdents]
  cases kind with
  | sequential => exact carries_pure rfl
  | recursive =>
    cases groupMention? bs with
    | none => exact carries_pure rfl
    | some m => exact carries_throw _ _

mutual

theorem lowerComp_carries (cs : Callees) (c : Comp) : Carries (Frame.relabel ρ) id (lowerComp cs c)
    (lowerComp (Callees.relabel ρ cs) (c.mapIdents ρ.ident)) := by
  match c with
  | .imm a => exact lowerImm_carries a
  | .prim1 .not a | .prim1 .neg a | .tupleGet index a | .unbox a =>
    exact (lowerImm_carries a).bind fun _ => carries_pure rfl
  | .prim2 op a b | .boxSet a b =>
    exact (lowerImm_carries a).bind fun _ => (lowerImm_carries b).bind fun _ => carries_pure rfl
  | .adt typeTag variant args =>
    simp only [Comp.mapIdents, Comp.mapOperands, lowerComp, adtFields_mapIdent]
    exact allocate_carries _
  | .tuple args =>
    simp only [Comp.mapIdents, Comp.mapOperands, lowerComp, tupleFields_mapIdent]
    exact allocate_carries _
  | .boxNew a => exact allocate_carries [.imm a]
  | .call f args => exact lowerCall_carries cs false f args
  | .callForeign f args => exact lowerCall_carries cs true f args
  | .branch cond thenArm elseArm =>
    simp only [Comp.mapIdents, lowerComp]
    apply (lowerImm_carries cond).bind
    intro cond
    apply (lowerExpr_carries cs thenArm).bind
    intro thenCode
    apply (lowerExpr_carries cs elseArm).bind
    intro elseCode
    exact carries_pure rfl
  | .fail code =>
    have hfail : ∀ fr : Frame, { fr.relabel ρ with failures := (fr.relabel ρ).failures ++ [code] } =
        Frame.relabel ρ { fr with failures := fr.failures ++ [code] } := fun _ => rfl
    exact (carries_modify hfail).bind fun _ => carries_pure rfl

theorem lowerBindings_carries (cs : Callees) (bs : List Binding) :
    Carries (Frame.relabel ρ) id (lowerBindings cs bs)
      (lowerBindings (Callees.relabel ρ cs) (Binding.mapIdents ρ.ident bs)) := by
  match bs with
  | [] => exact carries_pure rfl
  | ⟨id, comp, span⟩ :: bs =>
    simp only [Binding.mapIdents, lowerBindings]
    apply (lowerComp_carries cs comp).bind
    intro code
    apply carries_get.bind
    intro fr
    apply (carries_modify fun fr => fr.bind_relabel id).bind
    intro _
    apply (lowerBindings_carries cs bs).bind
    intro rest
    exact carries_pure rfl

theorem lowerExpr_carries (cs : Callees) (e : Expr) : Carries (Frame.relabel ρ) id (lowerExpr cs e)
    (lowerExpr (Callees.relabel ρ cs) (e.mapIdents ρ.ident)) := by
  match e with
  | .letIn kind bs body =>
    simp only [Expr.mapIdents, lowerExpr]
    apply (checkGroup_carries kind bs).bind
    intro _
    apply (lowerBindings_carries cs bs).bind
    intro code
    apply (lowerExpr_carries cs body).bind
    intro rest
    exact carries_pure rfl
  | .seq comp rest =>
    simp only [Expr.mapIdents, lowerExpr]
    apply (lowerComp_carries cs comp).bind
    intro code
    apply (lowerExpr_carries cs rest).bind
    intro rest
    exact carries_pure rfl
  | .comp comp => exact lowerComp_carries cs comp

end

/-! ### modules -/

theorem declare_carries (cs : Callees) {x x' : Ident} (hx : x'.stamp = ρ.stamp x.stamp)
    (c : Callee) :
    Carries id (Callees.relabel ρ) (declare cs x c) (declare (Callees.relabel ρ cs) x' c) := by
  have hlookup : (Callees.relabel ρ cs).lookup x'.stamp = cs.lookup x.stamp := by
    rw [hx]
    exact ρ.lookup_map cs x.stamp
  unfold declare
  rw [hlookup]
  split
  · exact carries_throw _ _
  · exact carries_pure (congrArg (fun n => (n, c) :: Callees.relabel ρ cs) hx)

theorem declareImports_carries (cs : Callees) (index : Nat) (is : List Import) :
    Carries id (Prod.map (Callees.relabel ρ) id) (declareImports cs index is)
      (declareImports (Callees.relabel ρ cs) index (is.map (Import.mapIdents ρ.ident))) := by
  induction is generalizing cs index with
  | nil => exact carries_pure rfl
  | cons i is ih =>
    rw [List.map_cons]
    apply (declare_carries cs (ρ.stamp_ident i.id) _).bind
    intro cs
    apply (carries_refl (intern i.arity.toNat)).bind
    intro typeIndex
    apply (ih cs (index + 1)).bind
    intro r
    exact carries_pure rfl

theorem declareFuncs_carries (cs : Callees) (index : Nat) (fs : List Func) :
    Carries id (Callees.relabel ρ) (declareFuncs cs index fs)
      (declareFuncs (Callees.relabel ρ cs) index (fs.map (Func.mapIdents ρ.ident))) := by
  induction fs generalizing cs index with
  | nil => exact carries_pure rfl
  | cons f fs ih =>
    have hparams : (f.mapIdents ρ.ident).params.length = f.params.length := List.length_map _
    rw [List.map_cons, declareFuncs, declareFuncs, hparams]
    have hstamp : (f.mapIdents ρ.ident).id.stamp = ρ.stamp f.id.stamp := ρ.stamp_ident f.id
    apply (declare_carries cs hstamp _).bind
    intro cs
    exact ih cs (index + 1)

/-- the code is the same, whatever the errors are wrapped in -/
theorem lowerBody_carries (cs : Callees) (params : List Ident) (body : Expr)
    (context context' : BodyError → Error) :
    Carries id id (lowerBody cs params body context)
      (lowerBody (Callees.relabel ρ cs) (params.map ρ.ident) (body.mapIdents ρ.ident)
        context') := by
  obtain ⟨hok, herror⟩ := lowerExpr_carries (ρ := ρ) cs body (Frame.ofParams params)
  unfold lowerBody
  rw [Frame.ofParams_mapIdents]
  cases hbody : lowerExpr cs body (Frame.ofParams params) with
  | ok code fr =>
    rw [hok code fr hbody]
    apply (carries_refl _).bind
    intro _
    exact carries_pure rfl
  | error e fr =>
    obtain ⟨e', fr', hbody'⟩ := herror e fr hbody
    rw [hbody']
    exact carries_of_error (fun b => ⟨_, _, rfl⟩) fun b => ⟨_, _, rfl⟩

theorem lowerFunc_carries (cs : Callees) (f : Func) : Carries id id (lowerFunc cs f)
    (lowerFunc (Callees.relabel ρ cs) (f.mapIdents ρ.ident)) := by
  have hparams : (f.mapIdents ρ.ident).params.length = f.params.length := List.length_map _
  unfold lowerFunc
  rw [hparams]
  apply (lowerBody_carries cs f.params f.body _ _).bind
  intro r
  apply (carries_refl (intern f.params.length)).bind
  intro typeIndex
  exact carries_pure rfl

theorem lowerFuncs_carries (cs : Callees) (fs : List Func) : Carries id id (lowerFuncs cs fs)
    (lowerFuncs (Callees.relabel ρ cs) (fs.map (Func.mapIdents ρ.ident))) := by
  induction fs with
  | nil => exact carries_pure rfl
  | cons f fs ih =>
    apply (lowerFunc_carries cs f).bind
    intro d
    apply ih.bind
    intro ds
    exact carries_pure rfl

theorem lowerEntry_carries (cs : Callees) (body : Expr) : Carries id id (lowerEntry cs body)
    (lowerEntry (Callees.relabel ρ cs) (body.mapIdents ρ.ident)) := by
  apply (lowerBody_carries cs [] body _ _).bind
  intro r
  exact carries_refl _

theorem lowerProgram_carries (p : Program) :
    Carries id id (lowerProgram p) (lowerProgram (p.mapIdents ρ.ident)) := by
  have hcount : (p.mapIdents ρ.ident).imports.length = p.imports.length := List.length_map _
  unfold lowerProgram
  rw [hcount]
  apply (declareImports_carries [] 0 p.imports).bind
  intro r
  apply (declareFuncs_carries r.1 p.imports.length p.functions).bind
  intro cs
  apply (lowerFuncs_carries cs p.functions).bind
  intro functions
  apply (lowerEntry_carries cs p.body).bind
  intro entry
  exact carries_refl _

end Lowering

namespace Program

theorem lower_mapIdents (ρ : Relabeling) (p : Program) (m : Wasm.Module) :
    (p.mapIdents ρ.ident).lower.1 = .ok m ↔ p.lower.1 = .ok m := by
  obtain ⟨hok, herror⟩ := Lowering.lowerProgram_carries (ρ := ρ) p Lowering.Build.start
  unfold lower
  cases hp : Lowering.lowerProgram p Lowering.Build.start with
  | ok m b =>
    have hq := hok m b hp
    rw [id] at hq
    rw [hq]
    rfl
  | error e b =>
    obtain ⟨e', b', hq⟩ := herror e b hp
    rw [id] at hq
    rw [hq]
    exact ⟨fun h => absurd h (by simp), fun h => absurd h (by simp)⟩

/-! ### programs that are alike -/

section
variable {r : UInt32 → UInt32} {p q : Program}

/-- what no relabeling changes is the same for programs that only differ in stamps and names -/
theorem eq_of_invariant {α : Sort _} {f : Program → α}
    (hf : ∀ (ρ : Relabeling) p, f (p.mapIdents ρ.ident) = f p) (hr : Function.Injective r)
    (h : (p.rename r).unnamed = q.unnamed) : f q = f p :=
  calc f q = f q.unnamed := (hf .unnamed q).symm
    _ = f (p.rename r).unnamed := by rw [h]
    _ = f (p.rename r) := hf .unnamed (p.rename r)
    _ = f p := hf (.ofStamps hr) p

theorem check_alike (hr : Function.Injective r) (h : (p.rename r).unnamed = q.unnamed) :
    q.check.mapError (Violation.mapIdent Ident.unnamed) =
      p.check.mapError (Violation.mapIdent (Ident.unnamed ∘ Ident.rename r)) :=
  calc q.check.mapError (Violation.mapIdent Ident.unnamed)
      = q.unnamed.check.mapError (Violation.mapIdent Ident.unnamed) :=
        (check_mapIdents .unnamed q).symm
    _ = (p.rename r).unnamed.check.mapError (Violation.mapIdent Ident.unnamed) := by rw [h]
    _ = (p.rename r).check.mapError (Violation.mapIdent Ident.unnamed) :=
        check_mapIdents .unnamed (p.rename r)
    _ = p.check.mapError (Violation.mapIdent (Ident.unnamed ∘ Ident.rename r)) :=
        check_mapIdents (.ofStamps hr) p

theorem share_alike (hr : Function.Injective r) (h : (p.rename r).unnamed = q.unnamed) :
    (p.share.program.rename r).unnamed = q.share.program.unnamed := by
  have hprogram (ρ : Relabeling) (p : Program) :
      (p.mapIdents ρ.ident).share.program = p.share.program.mapIdents ρ.ident :=
    congrArg Sharing.Outcome.program (share_mapIdents ρ p)
  calc (p.share.program.rename r).unnamed
      = (p.rename r).share.program.unnamed := congrArg unnamed (hprogram (.ofStamps hr) p).symm
    _ = (p.rename r).unnamed.share.program := (hprogram .unnamed (p.rename r)).symm
    _ = q.unnamed.share.program := by rw [h]
    _ = q.share.program.unnamed := hprogram .unnamed q

theorem functionNames_rename (r : UInt32 → UInt32) (p : Program) :
    (p.rename r).functionNames = p.functionNames :=
  List.map_map

/-- Only the identity of stamps matters.  If `q` is `p` with other stamps, different ones for
different ones, and with other names except for functions, then the check gives both the same
answer, sharing merges the same bindings, and both are lowered to one module or neither is. -/
theorem stages_of_alike (hr : Function.Injective r) (halike : (p.rename r).alike q = true)
    (hnames : q.functionNames = p.functionNames) :
    ((q.check = .ok () ↔ p.check = .ok ()) ∧
      ∀ v, p.check = .error v →
        ∃ w, q.check = .error w ∧ (v.mapIdent (Ident.rename r)).Alike w) ∧
    ((p.share.program.rename r).alike q.share.program = true ∧
      q.share.merged = p.share.merged) ∧
    (∀ m, q.lower.1 = .ok m ↔ p.lower.1 = .ok m) ∧
    ∀ m m', p.lower.1 = .ok m → q.lower.1 = .ok m' → ∀ url,
      (m'.encode url).bytes = (m.encode url).bytes ∧
        (m'.encode url).functions = (m.encode url).functions := by
  have hunnamed : (p.rename r).unnamed = q.unnamed :=
    (alike_iff_unnamed _ _).mp ⟨halike, (functionNames_rename r p).trans hnames.symm⟩
  have hshare := (alike_iff_unnamed _ _).mpr (share_alike hr hunnamed)
  have hmerged :=
    eq_of_invariant (f := fun p => p.share.merged) merged_share_mapIdents hr hunnamed
  have hmodule : ∀ m, q.lower.1 = .ok m ↔ p.lower.1 = .ok m := by
    intro m
    apply Iff.of_eq
    exact eq_of_invariant (f := fun p => p.lower.1 = .ok m)
      (fun ρ p => propext (lower_mapIdents ρ p m)) hr hunnamed
  refine ⟨check_alike_of_mapError (check_alike hr hunnamed), ⟨hshare.1, hmerged⟩, hmodule, ?_⟩
  intro m m' hm hm' url
  obtain rfl := Except.ok.inj (hm.symm.trans ((hmodule m').mp hm'))
  exact ⟨rfl, rfl⟩

end

/-- the twins with other stamps, the values under one name -/
def lookalikes : Program :=
  (Sharing.twins.rename (· + 10)).mapIdents fun x => ⟨"v", x.stamp⟩

theorem stages_of_lookalikes : (Function.Injective fun n : UInt32 => n + 10) ∧
    (Sharing.twins.rename (· + 10)).alike lookalikes = true ∧
    lookalikes.functionNames = Sharing.twins.functionNames ∧
    lookalikes.check = .ok () ∧ lookalikes.share.merged = 1 ∧
    ∃ m, Sharing.twins.lower.1 = .ok m ∧ lookalikes.lower.1 = .ok m := by
  have hr : Function.Injective fun n : UInt32 => n + 10 := fun m n h => by simpa using h
  have hunnamed : (Sharing.twins.rename (· + 10)).unnamed = lookalikes.unnamed := rfl
  have halike := ((alike_iff_unnamed _ _).mpr hunnamed).1
  have hnames : lookalikes.functionNames = Sharing.twins.functionNames := rfl
  obtain ⟨⟨hcheck, -⟩, ⟨-, hmerged⟩, hlower, -⟩ := stages_of_alike hr halike hnames
  exact ⟨hr, halike, hnames, hcheck.mpr rfl, hmerged, _, rfl, (hlower _).mpr rfl⟩

end Program

end AnfWasm
