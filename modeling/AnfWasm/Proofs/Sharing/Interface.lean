import AnfWasm.Compilation
import AnfWasm.Proofs.Lowering.Acceptance
import AnfWasm.Proofs.Sharing.Faults
import AnfWasm.Proofs.Store.Actions
import AnfWasm.Wasm.Signature

/-!
# Sharing keeps the interface

A program and what sharing makes of it are lowered side by side (`Alike`).  Both declare the same
callees, both stop at the same fault or at none, and they intern the same types in the same order,
so the modules differ in the code of their functions only (`Wasm.Module.outline`).
-/

namespace AnfWasm
open Sharing

/-! ### modules without code -/

namespace Wasm

def FuncDef.header (f : FuncDef) : FuncDef := { f with locals := 0, code := [] }

namespace Module

/-- the module with no code in its functions -/
def outline (m : Module) : Module := { m with functions := m.functions.map FuncDef.header }

theorem exportNames_outline (m : Module) : m.outline.exportNames = m.exportNames := by
  rw [exportNames, outline, List.filterMap_map]
  rfl

theorem exportsFrom_header (index : Nat) (fs : List FuncDef) :
    exportsFrom index (fs.map FuncDef.header) =
      (exportsFrom index fs).map fun (i, f, name) => (i, f.header, name) := by
  induction fs generalizing index with
  | nil => rfl
  | cons f fs ih =>
    have hname : f.header.exportName = f.exportName := rfl
    rw [List.map_cons, exportsFrom, exportsFrom, hname, ih]
    cases f.exportName <;> rfl

theorem signature_outline (m : Module) : m.outline.signature = m.signature := by
  have hexports : m.outline.exports = m.exports.map fun (i, f, name) => (i, f.header, name) :=
    exportsFrom_header _ _
  rw [signature, signature, hexports, List.map_map]
  rfl

theorem interface_of_outline {m m' : Module} (h : m'.outline = m.outline) :
    m'.signature = m.signature ∧ m'.imports = m.imports ∧ m'.types = m.types ∧
      m'.functions.map (fun f => (f.name, f.typeIndex, f.exportName)) =
        m.functions.map fun f => (f.name, f.typeIndex, f.exportName) := by
  obtain ⟨-, htypes, himports, hfunctions⟩ := Module.mk.inj h
  refine ⟨?_, himports, htypes, ?_⟩
  · rw [← m'.signature_outline, h, m.signature_outline]
  · have hmap := congrArg (List.map fun f => (f.name, f.typeIndex, f.exportName)) hfunctions
    rwa [List.map_map, List.map_map] at hmap

end Module

end Wasm

/-! ### lowering side by side -/

namespace Lowering
variable {α β : Type} {Q : α → α → Prop} {R : β → β → Prop} {b b' : Build}

/-- Two lowerings end with `Q` and the same interner, or with the same error. -/
def Alike (Q : α → α → Prop) : EStateM.Result Error Build α → EStateM.Result Error Build α → Prop
  | .ok a b, .ok a' b' => Q a a' ∧ b'.interner = b.interner
  | .error e _, .error e' _ => e' = e
  | _, _ => False

theorem Alike.cases {r r' : EStateM.Result Error Build α} (h : Alike Q r r') :
    (∃ a b a' b', r = .ok a b ∧ r' = .ok a' b' ∧ Q a a' ∧ b'.interner = b.interner) ∨
      ∃ e b b', r = .error e b ∧ r' = .error e b' := by
  match r, r', h with
  | .ok a b, .ok a' b', h => exact .inl ⟨a, b, a', b', rfl, rfl, h⟩
  | .error e b, .error _ b', rfl => exact .inr ⟨e, b, b', rfl, rfl⟩

theorem Alike.bind {x x' : Make α} {f f' : α → Make β} (h : Alike Q (x b) (x' b'))
    (hf : ∀ a a' b b', Q a a' → b'.interner = b.interner → Alike R (f a b) (f' a' b')) :
    Alike R ((x >>= f) b) ((x' >>= f') b') := by
  rcases h.cases with ⟨a, b₁, a', b₁', hx, hx', hQ, hb⟩ | ⟨e, b₁, b₁', hx, hx'⟩
  · rw [bind_of_ok hx, bind_of_ok hx']
    exact hf a a' b₁ b₁' hQ hb
  · rw [bind_of_error hx, bind_of_error hx']
    exact rfl

theorem intern_alike (arity : Nat) (hb : b'.interner = b.interner) :
    Alike Eq (intern arity b) (intern arity b') := by
  rw [intern_eq, intern_eq, hb]
  exact ⟨rfl, rfl⟩

section
variable {cs : Callees}

/-- bodies with the same first fault -/
theorem lowerBody_alike {params : List Ident} {body body' : Expr} (context : BodyError → Error)
    (hat : ∀ Δ t, body.At params.reverse Δ t → t.Resolves cs Δ)
    (hat' : ∀ Δ t, body'.At params.reverse Δ t → t.Resolves cs Δ)
    (hfault : body'.fault? = body.fault?) (hb : b'.interner = b.interner) :
    Alike (fun _ _ => True) (lowerBody cs params body context b)
      (lowerBody cs params body' context b') := by
  have h := lowerBody_fault context hat b
  have h' := lowerBody_fault context hat' b'
  rw [hfault] at h'
  cases hl : lowerBody cs params body context b with
  | ok r b₁ =>
    rw [hl] at h
    cases hl' : lowerBody cs params body' context b' with
    | ok r' b₁' =>
      rw [hl'] at h'
      exact ⟨trivial, h'.1.trans (hb.trans h.1.symm)⟩
    | error e' b₁' =>
      rw [hl'] at h'
      obtain ⟨x, y, -, hsome⟩ := h'
      exact absurd (h.2.symm.trans hsome) (by simp)
  | error e b₁ =>
    rw [hl] at h
    obtain ⟨x, y, rfl, hsome⟩ := h
    cases hl' : lowerBody cs params body' context b' with
    | ok r' b₁' =>
      rw [hl'] at h'
      exact absurd (h'.2.symm.trans hsome) (by simp)
    | error e' b₁' =>
      rw [hl'] at h'
      obtain ⟨x', y', rfl, hsome'⟩ := h'
      obtain ⟨rfl, rfl⟩ := Prod.mk.inj (Option.some.inj (hsome.symm.trans hsome'))
      rfl

variable {F : Merges}

theorem lowerFunc_alike {f : Func} (hat : ∀ Δ t, f.At Δ t → t.Resolves cs Δ)
    (hat' : ∀ Δ t, (f.rewrite F).At Δ t → t.Resolves cs Δ)
    (hfault : (f.rewrite F).body.fault? = f.body.fault?) (hb : b'.interner = b.interner) :
    Alike (fun d d' => d'.header = d.header) (lowerFunc cs f b)
      (lowerFunc cs (f.rewrite F) b') := by
  refine (lowerBody_alike (.inFunction f.id) hat hat' hfault hb).bind
    fun ⟨code, count⟩ ⟨code', count'⟩ b₁ b₁' _ hb₁ => ?_
  refine (intern_alike f.params.length hb₁).bind fun i i' b₂ b₂' hi hb₂ => ?_
  subst hi
  exact ⟨rfl, hb₂⟩

theorem lowerFuncs_alike {fs : List Func} (hat : ∀ f ∈ fs, ∀ Δ t, f.At Δ t → t.Resolves cs Δ)
    (hat' : ∀ f ∈ fs, ∀ Δ t, (f.rewrite F).At Δ t → t.Resolves cs Δ)
    (hfault : ∀ f ∈ fs, (f.rewrite F).body.fault? = f.body.fault?) (hb : b'.interner = b.interner) :
    Alike (fun ds ds' => ds'.map Wasm.FuncDef.header = ds.map Wasm.FuncDef.header)
      (lowerFuncs cs fs b) (lowerFuncs cs (fs.map (Func.rewrite F)) b') := by
  induction fs generalizing b b' with
  | nil => exact ⟨rfl, hb⟩
  | cons f fs ih =>
    obtain ⟨hat1, hat⟩ := List.forall_mem_cons.mp hat
    obtain ⟨hat1', hat'⟩ := List.forall_mem_cons.mp hat'
    obtain ⟨hfault1, hfault⟩ := List.forall_mem_cons.mp hfault
    refine (lowerFunc_alike hat1 hat1' hfault1 hb).bind fun d d' b₁ b₁' hd hb₁ => ?_
    refine (ih hat hat' hfault hb₁).bind fun ds ds' b₂ b₂' hds hb₂ => ⟨?_, hb₂⟩
    exact List.cons_eq_cons.mpr ⟨hd, hds⟩

theorem lowerEntry_alike {body body' : Expr} (hat : ∀ Δ t, body.At [] Δ t → t.Resolves cs Δ)
    (hat' : ∀ Δ t, body'.At [] Δ t → t.Resolves cs Δ) (hfault : body'.fault? = body.fault?)
    (hb : b'.interner = b.interner) :
    Alike (fun d d' => d'.header = d.header) (lowerEntry cs body b) (lowerEntry cs body' b') := by
  have h : Alike (fun _ _ => True) (lowerBody cs [] body .inEntry b)
      (lowerBody cs [] body' .inEntry b') := lowerBody_alike .inEntry hat hat' hfault hb
  refine h.bind fun ⟨code, count⟩ ⟨code', count'⟩ b₁ b₁' _ hb₁ => ?_
  refine (intern_alike 0 hb₁).bind fun i i' b₂ b₂' hi hb₂ => ?_
  subst hi
  exact ⟨rfl, hb₂⟩

theorem declareFuncs_rewrite (index : Nat) (fs : List Func) :
    declareFuncs cs index (fs.map (Func.rewrite F)) = declareFuncs cs index fs := by
  induction fs generalizing cs index with
  | nil => rfl
  | cons f fs ih =>
    rw [List.map_cons, declareFuncs, declareFuncs]
    exact congrArg _ (funext fun cs' => ih (index + 1))

end

theorem lowerProgram_alike {p : Program} (h : p.WellFormed) (b : Build) :
    Alike (fun m m' => m'.outline = m.outline) (lowerProgram p b)
      (lowerProgram p.share.program b) := by
  have h' := Program.wellFormed_share h
  obtain ⟨hfaults, hfault⟩ := Program.fault?_share h
  rw [(Program.share_eq h).1] at h' ⊢
  obtain ⟨⟨cs₁, imports⟩, b₁, cs, h1, h2, hres⟩ := h.declares_all b
  obtain ⟨r, _, cs', h1', h2', hres'⟩ := h'.declares_all b
  -- the same is declared
  obtain ⟨rfl, rfl⟩ := EStateM.Result.ok.inj (h1.symm.trans h1')
  have hcs : declareFuncs cs₁ p.imports.length p.functions b₁ = .ok cs' b₁ := by
    rw [← h2', ← declareFuncs_rewrite]
    rfl
  obtain ⟨rfl, -⟩ := EStateM.Result.ok.inj (h2.symm.trans hcs)
  have hdeclared : lowerProgram p b = _ := (bind_of_ok h1).trans (bind_of_ok h2)
  have hdeclared' : lowerProgram (p.rewrite p.replacements) b = _ :=
    (bind_of_ok h1').trans (bind_of_ok h2')
  rw [hdeclared, hdeclared']
  have hfuncs := lowerFuncs_alike (fun f hf Δ t hat => hres Δ t (.inl ⟨f, hf, hat⟩))
    (fun f hf Δ t hat => hres' Δ t (.inl ⟨_, List.mem_map_of_mem hf, hat⟩)) hfaults
    (rfl : b₁.interner = b₁.interner)
  refine hfuncs.bind fun ds ds' b₂ b₂' hds hb₂ => ?_
  have hentry := lowerEntry_alike (fun Δ t hat => hres Δ t (.inr hat))
    (fun Δ t hat => hres' Δ t (.inr hat)) hfault hb₂
  refine hentry.bind fun d d' b₃ b₃' hd hb₃ => ?_
  have hget (b : Build) : (get : Make Build) b = .ok b b := rfl
  rw [bind_of_ok (hget b₃), bind_of_ok (hget b₃')]
  let m : Wasm.Module := ⟨p.source, b₃.interner.types, imports, ds ++ [d]⟩
  let m' : Wasm.Module :=
    ⟨(p.rewrite p.replacements).source, b₃'.interner.types, imports, ds' ++ [d']⟩
  have houtline : m'.outline = m.outline := by
    have hfunctions : (ds' ++ [d']).map Wasm.FuncDef.header =
        (ds ++ [d]).map Wasm.FuncDef.header := by
      rw [List.map_append, List.map_append, hds, List.map_singleton, List.map_singleton, hd]
    show Wasm.Module.mk p.source b₃'.interner.types imports _ =
      Wasm.Module.mk p.source b₃.interner.types imports _
    rw [hb₃, hfunctions]
  have hnames : m'.exportNames = m.exportNames := by
    rw [← m'.exportNames_outline, houtline, m.exportNames_outline]
  rw [hnames]
  cases repeated? [Wasm.memoryName] m.exportNames with
  | some name => exact rfl
  | none => exact ⟨houtline, hb₃⟩

end Lowering

namespace Program
variable {p : Program}

/-- what is known of the two results of lowering, in the terms of `Program.lower` -/
theorem lower_alike (h : p.WellFormed) :
    (∃ e, p.lower.1 = .error e ∧ p.share.program.lower.1 = .error e) ∨
      ∃ m m', p.lower.1 = .ok m ∧ p.share.program.lower.1 = .ok m' ∧ m'.outline = m.outline := by
  unfold Program.lower
  rcases (Lowering.lowerProgram_alike h .start).cases with
    ⟨m, b, m', b', hr, hr', houtline, -⟩ | ⟨e, b, b', hr, hr'⟩
  · rw [hr, hr']
    exact .inr ⟨m, m', rfl, rfl, houtline⟩
  · rw [hr, hr']
    exact .inl ⟨e, rfl, rfl⟩

theorem lower_share_error_iff (h : p.WellFormed) (e : Lowering.Error) :
    p.share.program.lower.1 = .error e ↔ p.lower.1 = .error e := by
  rcases lower_alike h with ⟨e', h1, h2⟩ | ⟨m, m', h1, h2, -⟩
  · rw [h1, h2]
  · rw [h1, h2]
    simp

theorem lower_share_ok_iff (h : p.WellFormed) :
    (∃ m', p.share.program.lower.1 = .ok m') ↔ ∃ m, p.lower.1 = .ok m := by
  rcases lower_alike h with ⟨e, h1, h2⟩ | ⟨m, m', h1, h2, -⟩
  · rw [h1, h2]
  · exact ⟨fun _ => ⟨m, h1⟩, fun _ => ⟨m', h2⟩⟩

theorem outline_share (h : p.WellFormed) {m m' : Wasm.Module} (hm : p.lower.1 = .ok m)
    (hm' : p.share.program.lower.1 = .ok m') : m'.outline = m.outline := by
  rcases lower_alike h with ⟨e, h1, -⟩ | ⟨n, n', h1, h2, houtline⟩
  · exact absurd (hm.symm.trans h1) (by simp)
  · obtain rfl := Except.ok.inj (hm.symm.trans h1)
    obtain rfl := Except.ok.inj (hm'.symm.trans h2)
    exact houtline

end Program

/-! ### compilations -/

namespace Compilation
variable {fs : Files} {p : Program}

/-- The result is an error that comes before emission if and only if the program cannot be
lowered. -/
def Tells (p : Program) (r : Except Error Emission.Emitted) : Prop :=
  ∀ e, (∀ c, e ≠ .emission c) → (r = .error e ↔ ∃ c, p.lower.1 = .error c ∧ e = .lowering c)

theorem ends_lower (p : Program) : Ends (lower p : Compiling (StateM Files) Wasm.Module).run fs
    fun r _ => r = p.lower.1.mapError .lowering := by
  intro log
  unfold lower
  cases p.lower with
  | mk result records => cases result <;> rfl

theorem ends_emit (o : Options) (module : Wasm.Module) (output : Path) :
    Ends (emit o module output : Compiling (StateM Files) Emission.Emitted).run fs
      fun r _ => ∀ e, (∀ c, e ≠ .emission c) → r ≠ .error e := by
  refine Ends.bind (Q := fun _ _ => True) (fun _ => trivial) fun r fs' _ => ?_
  cases r with
  | ok emitted =>
    intro log e _ h
    have h' : (Except.ok emitted : Except Error Emission.Emitted) = .error e := h
    exact absurd h' (by simp)
  | error c => exact fun _ e he h => he c (Except.error.inj h).symm

theorem ends_lower_emit (o : Options) (p : Program) (output : Path) :
    Ends (lower p >>= fun module => emit o module output :
      Compiling (StateM Files) Emission.Emitted).run fs fun r _ => Tells p r := by
  refine (ends_lower p).bind_run (fun module fs' hr => ?_) fun e fs' hr e' he => ?_
  · cases hl : p.lower.1 with
    | error c =>
      rw [hl] at hr
      exact absurd hr (by simp [Except.mapError])
    | ok m =>
      refine (ends_emit o module output).imp fun r _ hlate e he => ?_
      rw [hl]
      exact ⟨fun h => absurd h (hlate e he), fun ⟨c, h, _⟩ => absurd h (by simp)⟩
  · cases hl : p.lower.1 with
    | ok m =>
      rw [hl] at hr
      exact absurd hr (by simp [Except.mapError])
    | error c =>
      rw [hl] at hr
      obtain rfl : e = .lowering c := Except.error.inj hr
      exact ⟨fun h => ⟨c, rfl, (Except.error.inj h).symm⟩,
        fun ⟨_, h, h'⟩ => by rw [h', Except.error.inj h]⟩

/-- the program that is lowered -/
def Options.final (o : Options) (p : Program) : Program :=
  if o.optimize then p.share.program else p

theorem ends_optimize (o : Options) (h : p.share.program.check = .ok ()) :
    Ends (optimize o p : Compiling (StateM Files) Program).run fs
      fun r _ => r = .ok (o.final p) := by
  intro log
  rw [optimize_of_ok h]
  unfold optimize Options.final
  cases o.optimize <;> rfl

theorem ends_compileProgram (h : p.WellFormed) (output : Path) (o : Options) (fs : Files) :
    Ends (compileProgram p output o : Compiling (StateM Files) Emission.Emitted).run fs
      fun r _ => Tells (o.final p) r := by
  have hcheck := p.share.program.check_ok_iff.mpr (Program.wellFormed_share h)
  unfold compileProgram
  rw [verify_of_ok (p.check_ok_iff.mpr h), pure_bind]
  refine (ends_optimize o hcheck).bind_run (fun q fs' hq => ?_) fun e fs' he => absurd he (by simp)
  obtain rfl := Except.ok.inj hq
  exact Ends.lift_speaking_run (Q := fun _ _ => True) (fun _ => trivial)
    fun _ fs' _ => ends_lower_emit o _ output

theorem ends_malformed {v : Violation} (h : p.check = .error v) (output : Path) {o : Options}
    (ho : o.verify = true) (fs : Files) :
    Ends (compileProgram p output o : Compiling (StateM Files) Emission.Emitted).run fs
      fun r _ => r = .error (.malformed v) := by
  unfold compileProgram
  rw [verify_of_error h ho]
  exact fun _ => rfl

end Compilation

/-- **Sharing changes neither which programs are lowered nor what is seen of their modules**, so
with the check on, sharing is never the reason why a compilation fails before emission. -/
theorem Program.lower_share (p : Program) :
    (p.check = .ok () →
      ((∃ m', p.share.program.lower.1 = .ok m') ↔ ∃ m, p.lower.1 = .ok m) ∧
      (∀ e, p.share.program.lower.1 = .error e ↔ p.lower.1 = .error e) ∧
      ∀ m m', p.lower.1 = .ok m → p.share.program.lower.1 = .ok m' →
        m'.signature = m.signature ∧ m'.imports = m.imports ∧ m'.types = m.types ∧
          m'.functions.map (fun f => (f.name, f.typeIndex, f.exportName)) =
            m.functions.map fun f => (f.name, f.typeIndex, f.exportName)) ∧
    ∀ (output : Path) (o : Compilation.Options), o.verify = true →
      ∀ (log : List LogRecord) (fs : Files) (e : Compilation.Error), (∀ c, e ≠ .emission c) →
        (((Compilation.compileProgram p output { o with optimize := true } :
            Compilation.Compiling (StateM Files) Emission.Emitted).run log fs).1.1 = .error e ↔
          ((Compilation.compileProgram p output { o with optimize := false } :
            Compilation.Compiling (StateM Files) Emission.Emitted).run log fs).1.1 = .error e) := by
  refine ⟨fun hp => ?_, fun output o hv log fs e he => ?_⟩
  · have h := p.check_ok_iff.mp hp
    refine ⟨Program.lower_share_ok_iff h, Program.lower_share_error_iff h, fun m m' hm hm' => ?_⟩
    exact Wasm.Module.interface_of_outline (Program.outline_share h hm hm')
  · cases hc : p.check with
    | ok _ =>
      have h := p.check_ok_iff.mp hc
      have hshared := Compilation.ends_compileProgram h output { o with optimize := true } fs log
      have hplain := Compilation.ends_compileProgram h output { o with optimize := false } fs log
      refine (hshared e he).trans (Iff.trans ?_ (hplain e he).symm)
      exact exists_congr fun c => and_congr_left' (Program.lower_share_error_iff h c)
    | error v =>
      have hshared := Compilation.ends_malformed hc output (o := { o with optimize := true }) hv
      have hplain := Compilation.ends_malformed hc output (o := { o with optimize := false }) hv
      rw [hshared fs log, hplain fs log]

/-- a group that mentions itself twice, the second time in a binding that sharing takes away -/
def Sharing.tangle : Program where
  source := none
  imports := []
  functions := []
  body := .letIn .recursive [
      ⟨⟨"x", 0⟩, .branch (.bool true)
        (.letOne ⟨"a", 2⟩ (.tuple [.id ⟨"y", 1⟩])
          (.letOne ⟨"b", 3⟩ (.tuple [.id ⟨"y", 1⟩]) (.imm (.id ⟨"b", 3⟩))))
        (.imm (.int 0)), none⟩,
      ⟨⟨"y", 1⟩, .tuple [.int 1], none⟩]
    (.imm (.id ⟨"x", 0⟩))

theorem Program.lower_share_tangle :
    (twins.check = .ok () ∧ twins.share.merged = 1 ∧
      ∃ m m', twins.lower.1 = .ok m ∧ twins.share.program.lower.1 = .ok m' ∧
        m'.signature = m.signature) ∧
    tangle.check = .ok () ∧ tangle.share.merged = 1 ∧
      ((Compilation.compileProgram tangle ⟨"a.wasm"⟩ { } :
        Compilation.Compiling (StateM Files) Emission.Emitted).run [] .empty).1.1 =
          .error (.lowering (.inEntry (.groupMention ⟨"x", 0⟩ ⟨"y", 1⟩))) := by
  refine ⟨⟨rfl, rfl, _, _, rfl, rfl, ?_⟩, rfl, rfl, ?_⟩
  · exact ((Program.lower_share twins).1 rfl).2.2 _ _ rfl rfl |>.1
  · exact ((Program.lower_share tangle).2 ⟨"a.wasm"⟩ { } rfl [] .empty _ (by simp)).mpr rfl

end AnfWasm
