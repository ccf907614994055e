import AnfWasm.Program.Scope
import AnfWasm.Proofs.Program.Renaming

/-!
# The check reads stamps only

The check of a relabeled program goes in step with that of the program (`Checker.Follows`): the
stamps it has met and the visible ones are the images, and so is what it has reported, names aside.
-/

namespace AnfWasm

def Violation.mapIdent (φ : Ident → Ident) : Violation → Violation
  | .unbound x => .unbound (φ x)
  | .rebound x => .rebound (φ x)
  | .notAFunction x => .notAFunction (φ x)
  | .notAnImport x => .notAnImport (φ x)
  | .arityMismatch f expected found => .arityMismatch (φ f) expected found

/-- a report of the same kind about the same stamps -/
def Violation.Alike (v w : Violation) : Prop :=
  v.mapIdent Ident.unnamed = w.mapIdent Ident.unnamed

def Globals.relabel (ρ : Relabeling) (g : Globals) : Globals where
  imports := g.imports.map (Prod.map ρ.stamp id)
  functions := g.functions.map (Prod.map ρ.stamp id)

theorem Program.globals_mapIdents (ρ : Relabeling) (p : Program) :
    (p.mapIdents ρ.ident).globals = p.globals.relabel ρ := by
  simp only [Program.globals, Program.mapIdents, Globals.relabel, List.map_map, Globals.mk.injEq]
  constructor
  · refine List.map_congr_left fun i _ => Prod.ext ?_ rfl
    exact ρ.stamp_ident i.id
  · refine List.map_congr_left fun f _ => Prod.ext ?_ ?_
    · exact ρ.stamp_ident f.id
    · exact List.length_map _

namespace Scope.Checker
variable {ρ : Relabeling} {s s' : Checker}

/-- `s'` is what `s` is for the relabeled program. -/
structure Follows (ρ : Relabeling) (s s' : Checker) : Prop where
  bound : s'.bound = s.bound.map ρ.stamp
  visible : s'.visible = s.visible.map ρ.stamp
  first : s'.first?.map (Violation.mapIdent Ident.unnamed) =
    s.first?.map (Violation.mapIdent (Ident.unnamed ∘ ρ.ident))

theorem follows_start (ρ : Relabeling) : Follows ρ start start := ⟨rfl, rfl, rfl⟩

/-- reports that are the same but for names -/
def Mirrors (ρ : Relabeling) (v v' : Violation) : Prop :=
  v'.mapIdent Ident.unnamed = v.mapIdent (Ident.unnamed ∘ ρ.ident)

theorem unnamed_eq {x x' : Ident} (h : x'.stamp = ρ.stamp x.stamp) :
    x'.unnamed = (Ident.unnamed ∘ ρ.ident) x := by
  show (⟨"", x'.stamp⟩ : Ident) = ⟨"", (ρ.ident x).stamp⟩
  rw [h, ρ.stamp_ident]

namespace Follows

theorem report (h : Follows ρ s s') {v v' : Violation} (hv : Mirrors ρ v v') :
    Follows ρ (s.report v) (s'.report v') := by
  have hfirst := h.first
  unfold Checker.report
  cases hs : s.first? with
  | none =>
    rw [hs] at hfirst
    rw [Option.map_eq_none_iff.mp hfirst]
    exact ⟨h.bound, h.visible, congrArg some hv⟩
  | some w =>
    rw [hs] at hfirst
    obtain ⟨w', hs', -⟩ := Option.map_eq_some_iff.mp hfirst
    rw [hs']
    exact h

theorem bindGlobal (h : Follows ρ s s') {x x' : Ident} (hx : x'.stamp = ρ.stamp x.stamp) :
    Follows ρ (s.bindGlobal x) (s'.bindGlobal x') := by
  unfold Checker.bindGlobal
  rw [h.bound, hx, ρ.contains_map]
  split
  · exact h.report (congrArg Violation.rebound (unnamed_eq hx))
  · exact ⟨rfl, h.visible, h.first⟩

theorem bind (h : Follows ρ s s') {x x' : Ident} (hx : x'.stamp = ρ.stamp x.stamp) :
    Follows ρ (s.bind x) (s'.bind x') := by
  have hg := h.bindGlobal hx
  refine ⟨hg.bound, ?_, hg.first⟩
  show x'.stamp :: (s'.bindGlobal x').visible = ρ.stamp x.stamp :: List.map _ _
  rw [hx, hg.visible]

theorem forget (h : Follows ρ s s') (x : Ident) :
    Follows ρ (s.forget x) (s'.forget (ρ.ident x)) := by
  refine ⟨h.bound, ?_, h.first⟩
  show s'.visible.filter (· ≠ (ρ.ident x).stamp) = (s.visible.filter (· ≠ x.stamp)).map ρ.stamp
  rw [h.visible, ρ.stamp_ident, List.filter_map]
  refine congrArg _ (List.filter_congr fun n _ => ?_)
  simp [ρ.injective.eq_iff]

theorem imm (h : Follows ρ s s') (a : Imm) : Follows ρ (s.imm a) (s'.imm (a.mapIdent ρ.ident)) := by
  cases a with
  | const c => exact h
  | id x =>
    show Follows ρ (if s.visible.contains x.stamp then s else s.report (.unbound x))
      (if s'.visible.contains (ρ.ident x).stamp then s' else s'.report (.unbound (ρ.ident x)))
    rw [h.visible, ρ.stamp_ident, ρ.contains_map]
    split
    · exact h
    · exact h.report rfl

/-- step by step over a list and its images -/
theorem foldl {α β : Type} {f : Checker → α → Checker} {f' : Checker → β → Checker} {ψ : α → β}
    (hf : ∀ {s s'} a, Follows ρ s s' → Follows ρ (f s a) (f' s' (ψ a))) (h : Follows ρ s s')
    (as : List α) : Follows ρ (as.foldl f s) ((as.map ψ).foldl f' s') := by
  induction as generalizing s s' with
  | nil => exact h
  | cons a as ih => exact ih (hf a h)

theorem imms (h : Follows ρ s s') (as : List Imm) :
    Follows ρ (s.imms as) (s'.imms (as.map (Imm.mapIdent ρ.ident))) :=
  h.foldl (fun a h => h.imm a) as

theorem bindAll (h : Follows ρ s s') (xs : List Ident) :
    Follows ρ (xs.foldl Checker.bind s) ((xs.map ρ.ident).foldl Checker.bind s') :=
  h.foldl (fun x h => h.bind (ρ.stamp_ident x)) xs

theorem forgetAll (h : Follows ρ s s') (xs : List Ident) :
    Follows ρ (xs.foldl Checker.forget s) ((xs.map ρ.ident).foldl Checker.forget s') :=
  h.foldl (fun x h => h.forget x) xs

theorem callee (h : Follows ρ s s') (table : List (UInt32 × Nat)) (missing : Ident → Violation)
    (hmissing : ∀ φ x, (missing x).mapIdent φ = missing (φ x)) (f : Ident) (found : Nat) :
    Follows ρ (s.callee table missing f found)
      (s'.callee (table.map (Prod.map ρ.stamp id)) missing (ρ.ident f) found) := by
  unfold Checker.callee
  rw [ρ.stamp_ident, ρ.lookup_map]
  cases table.lookup f.stamp with
  | none => exact h.report (by rw [Mirrors, hmissing, hmissing, Function.comp_apply])
  | some expected =>
    show Follows ρ (if expected = found then s else s.report (.arityMismatch f expected found))
      (if expected = found then s' else s'.report (.arityMismatch (ρ.ident f) expected found))
    split
    · exact h
    · exact h.report rfl

end Follows

mutual

theorem follows_comp (g : Globals) {s s' : Checker} (h : Follows ρ s s') (c : Comp) :
    Follows ρ (comp g s c) (comp (g.relabel ρ) s' (c.mapIdents ρ.ident)) := by
  match c with
  | .call f args =>
    have hc := (h.callee g.functions .notAFunction (fun _ _ => rfl) f args.length).imms args
    simpa only [comp, Comp.mapIdents, Globals.relabel, List.length_map] using hc
  | .callForeign f args =>
    have hc := (h.callee g.imports .notAnImport (fun _ _ => rfl) f args.length).imms args
    simpa only [comp, Comp.mapIdents, Globals.relabel, List.length_map] using hc
  | .branch cond thenArm elseArm =>
    exact follows_expr g (follows_expr g (h.imm cond) thenArm) elseArm
  | .imm _ | .prim1 _ _ | .prim2 _ _ _ | .adt _ _ _ | .tuple _ | .tupleGet _ _ | .boxNew _
  | .unbox _ | .boxSet _ _ | .fail _ => exact h.imms _

theorem follows_sequential (g : Globals) {s s' : Checker} (h : Follows ρ s s')
    (bs : List Binding) : Follows ρ (sequential g s bs)
      (sequential (g.relabel ρ) s' (Binding.mapIdents ρ.ident bs)) := by
  match bs with
  | [] => exact h
  | ⟨id, c, span⟩ :: bs =>
    exact follows_sequential g ((follows_comp g h c).bind (ρ.stamp_ident id)) bs

theorem follows_group (g : Globals) {s s' : Checker} (h : Follows ρ s s') (bs : List Binding) :
    Follows ρ (group g s bs) (group (g.relabel ρ) s' (Binding.mapIdents ρ.ident bs)) := by
  match bs with
  | [] => exact h
  | ⟨id, c, span⟩ :: bs => exact follows_group g (follows_comp g h c) bs

theorem follows_expr (g : Globals) {s s' : Checker} (h : Follows ρ s s') (e : Expr) :
    Follows ρ (expr g s e) (expr (g.relabel ρ) s' (e.mapIdents ρ.ident)) := by
  match e with
  | .letIn .sequential bs body =>
    have hbody := follows_expr g (follows_sequential g h bs) body
    simpa only [expr, Expr.mapIdents, Binding.map_id_mapIdents] using
      hbody.forgetAll (bs.map Binding.id)
  | .letIn .recursive bs body =>
    have hbound := h.bindAll (bs.map Binding.id)
    have hbody := follows_expr g (follows_group g hbound bs) body
    simpa only [expr, Expr.mapIdents, Binding.map_id_mapIdents] using
      hbody.forgetAll (bs.map Binding.id)
  | .seq c rest => exact follows_expr g (follows_comp g h c) rest
  | .comp c => exact follows_comp g h c

end

theorem follows_func (g : Globals) (h : Follows ρ s s') (f : Func) :
    Follows ρ (func g s f) (func (g.relabel ρ) s' (f.mapIdents ρ.ident)) := by
  have hempty : Follows ρ { s with visible := [] } { s' with visible := [] } :=
    ⟨h.bound, rfl, h.first⟩
  have hinner := follows_expr g (hempty.bindAll f.params) f.body
  exact ⟨hinner.bound, h.visible, hinner.first⟩

theorem follows_program (ρ : Relabeling) (p : Program) :
    Follows ρ (program p) (program (p.mapIdents ρ.ident)) := by
  have himports : Follows ρ ((p.imports.map Import.id).foldl bindGlobal start)
      (((p.imports.map Import.id).map ρ.ident).foldl bindGlobal start) :=
    (follows_start ρ).foldl (fun x h => h.bindGlobal (ρ.stamp_ident x)) _
  -- functions keep their names, and only the stamps of binders matter
  have hids := himports.foldl (f := bindGlobal) (ψ := fun x => ⟨x.name, (ρ.ident x).stamp⟩)
    (fun x h => h.bindGlobal (ρ.stamp_ident x)) (p.functions.map Func.id)
  have hfuncs := hids.foldl (fun f h => follows_func p.globals h f) p.functions
  have hbody := follows_expr p.globals hfuncs p.body
  unfold program
  rw [p.globals_mapIdents]
  simp only [Program.mapIdents, List.map_map] at hbody ⊢
  exact hbody

end Scope.Checker

namespace Program

/-- The check gives a relabeled program the same answer, about the relabeled identifiers. -/
theorem check_mapIdents (ρ : Relabeling) (p : Program) :
    (p.mapIdents ρ.ident).check.mapError (Violation.mapIdent Ident.unnamed) =
      p.check.mapError (Violation.mapIdent (Ident.unnamed ∘ ρ.ident)) := by
  have hfirst := (Scope.Checker.follows_program ρ p).first
  unfold check
  cases hp : (Scope.Checker.program p).first? with
  | none =>
    rw [hp] at hfirst
    rw [Option.map_eq_none_iff.mp hfirst]
    rfl
  | some v =>
    rw [hp] at hfirst
    obtain ⟨w, hq, hw⟩ := Option.map_eq_some_iff.mp hfirst
    rw [hq]
    exact congrArg Except.error hw

/-- answers that are equal but for names, the identifiers of one of them replaced -/
theorem check_alike_of_mapError {φ : Ident → Ident} {p q : Program}
    (h : q.check.mapError (Violation.mapIdent Ident.unnamed) =
      p.check.mapError (Violation.mapIdent (Ident.unnamed ∘ φ))) :
    (q.check = .ok () ↔ p.check = .ok ()) ∧
      ∀ v, p.check = .error v → ∃ w, q.check = .error w ∧ (v.mapIdent φ).Alike w := by
  cases hp : p.check with
  | ok _ =>
    cases hq : q.check with
    | ok _ => exact ⟨Iff.rfl, fun v hv => absurd hv (by simp)⟩
    | error w =>
      rw [hp, hq] at h
      exact absurd h (by simp [Except.mapError])
  | error v =>
    cases hq : q.check with
    | ok _ =>
      rw [hp, hq] at h
      exact absurd h (by simp [Except.mapError])
    | error w =>
      rw [hp, hq] at h
      have hw : w.mapIdent Ident.unnamed = v.mapIdent (Ident.unnamed ∘ φ) := Except.error.inj h
      refine ⟨by simp, fun v' hv' => ⟨w, rfl, ?_⟩⟩
      rw [← Except.error.inj hv', Violation.Alike, hw]
      cases v <;> rfl

end Program

end AnfWasm
