import AnfWasm.Proofs.Program.Renaming

/-!
# Sharing reads stamps only

Sharing a relabeled program does, step by step, what it does to the program itself: the state is
always the relabeled one (`Tracks`), so the outcome is the relabeled outcome
(`Program.share_mapIdents`).  Keys of different constructions stay different because stamps do.
-/

namespace AnfWasm

variable {ρ : Relabeling}

/-! ### keys -/

def Atom.relabel (ρ : Relabeling) : Atom → Atom
  | .var n => .var (ρ.stamp n)
  | .const c => .const c

theorem Atom.relabel_injective : Function.Injective (Atom.relabel ρ) := by
  intro a b h
  cases a <;> cases b <;> simp [Atom.relabel, ρ.injective.eq_iff] at h ⊢ <;> exact h

def Key.relabel (ρ : Relabeling) : Key → Key
  | .adt typeTag variant args => .adt typeTag variant (args.map (Atom.relabel ρ))
  | .tuple args => .tuple (args.map (Atom.relabel ρ))

theorem Key.relabel_injective : Function.Injective (Key.relabel ρ) := by
  intro k k' h
  have hargs (as bs : List Atom) : as.map (Atom.relabel ρ) = bs.map (Atom.relabel ρ) ↔ as = bs :=
    Atom.relabel_injective.list_map.eq_iff
  cases k <;> cases k' <;> simp [Key.relabel, hargs] at h ⊢ <;> exact h

theorem Imm.atom_mapIdent (a : Imm) : (a.mapIdent ρ.ident).atom = a.atom.relabel ρ := by
  cases a with
  | id x => exact congrArg Atom.var (ρ.stamp_ident x)
  | const c => rfl

theorem Comp.key?_mapIdents (c : Comp) :
    (c.mapIdents ρ.ident).key? = c.key?.map (Key.relabel ρ) := by
  have hatoms (args : List Imm) : (args.map (Imm.mapIdent ρ.ident)).map Imm.atom =
      (args.map Imm.atom).map (Atom.relabel ρ) := by
    rw [List.map_map, List.map_map]
    exact List.map_congr_left fun a _ => a.atom_mapIdent
  cases c with
  | adt typeTag variant args => exact congrArg (some ∘ Key.adt typeTag variant) (hatoms args)
  | tuple args => exact congrArg (some ∘ Key.tuple) (hatoms args)
  | _ => rfl

theorem Comp.purity_mapIdents (φ : Ident → Ident) (c : Comp) :
    (c.mapIdents φ).purity = c.purity := by
  cases c with
  | prim2 op a b => cases op <;> rfl
  | _ => rfl

theorem Comp.mapOperands_mapIdents {φ : Ident → Ident} {f f' : Imm → Imm}
    (h : ∀ a, f' (a.mapIdent φ) = (f a).mapIdent φ) (c : Comp) :
    (c.mapIdents φ).mapOperands f' = (c.mapOperands f).mapIdents φ := by
  have hargs (args : List Imm) :
      (args.map (Imm.mapIdent φ)).map f' = (args.map f).map (Imm.mapIdent φ) := by
    rw [List.map_map, List.map_map]
    exact List.map_congr_left fun a _ => h a
  cases c <;> simp only [Comp.mapIdents, Comp.mapOperands, h, hargs]

namespace Sharing

/-! ### the state -/

def Region.relabel (ρ : Relabeling) (f : Region) : Region :=
  { f with keys := f.keys.map (Key.relabel ρ) }

def State.relabel (ρ : Relabeling) (s : State) : State where
  table := s.table.map (Prod.map (Key.relabel ρ) ρ.ident)
  merges := s.merges.map (Prod.map ρ.ident ρ.ident)
  regions := s.regions.map (Region.relabel ρ)

theorem replacement?_relabel (merges : List (Ident × Ident)) (n : UInt32) :
    replacement? (merges.map (Prod.map ρ.ident ρ.ident)) (ρ.stamp n) =
      (replacement? merges n).map ρ.ident := by
  unfold replacement?
  have hstamp : ((fun m : Ident × Ident => decide (m.1.stamp = ρ.stamp n)) ∘
      Prod.map ρ.ident ρ.ident) = fun m => decide (m.1.stamp = n) := by
    funext m
    simp [ρ.stamp_ident, ρ.injective.eq_iff]
  rw [List.find?_map, hstamp, Option.map_map, Option.map_map]
  rfl

theorem follow_relabel (merges : List (Ident × Ident)) (n : Nat) (x : Ident) :
    follow (merges.map (Prod.map ρ.ident ρ.ident)) n (ρ.ident x) =
      ρ.ident (follow merges n x) := by
  induction n generalizing x with
  | zero => rfl
  | succ n ih =>
    rw [follow, follow, ρ.stamp_ident, replacement?_relabel]
    cases replacement? merges x.stamp with
    | none => rfl
    | some y => exact ih y

namespace State
variable (s : State)

theorem resolveImm_relabel (a : Imm) :
    (s.relabel ρ).resolveImm (a.mapIdent ρ.ident) = (s.resolveImm a).mapIdent ρ.ident := by
  cases a with
  | const c => rfl
  | id x =>
    show Imm.id ((s.relabel ρ).resolve (ρ.ident x)) = Imm.id (ρ.ident (s.resolve x))
    rw [resolve, relabel, List.length_map, follow_relabel, resolve]

theorem pop_relabel : (s.relabel ρ).pop = s.pop.relabel ρ := by
  obtain ⟨table, merges, regions⟩ := s
  cases regions with
  | nil => rfl
  | cons f fs =>
    -- a key goes exactly if its image does
    have hkeys : ((fun e : Key × Ident => !(f.relabel ρ).keys.contains e.1) ∘
        Prod.map (Key.relabel ρ) ρ.ident) = fun e => !f.keys.contains e.1 := by
      funext e
      exact congrArg not (contains_map_of_injective Key.relabel_injective f.keys e.1)
    show State.mk ((table.map _).filter _) _ _ = State.mk ((table.filter _).map _) _ _
    rw [List.filter_map, hkeys]
    rfl

theorem register_relabel (b : Binding) :
    (s.relabel ρ).register (b.mapIdent ρ.ident) = (s.register b).relabel ρ := by
  obtain ⟨table, merges, regions⟩ := s
  cases regions with
  | nil => rfl
  | cons f fs =>
    have hkey : (b.mapIdent ρ.ident).comp.key? = b.comp.key?.map (Key.relabel ρ) :=
      b.comp.key?_mapIdents
    have hpure : (b.mapIdent ρ.ident).comp.purity = b.comp.purity :=
      b.comp.purity_mapIdents ρ.ident
    have hkind : (f.relabel ρ).kind = f.kind := rfl
    simp only [register, relabel, List.map_cons, hkey, hpure, hkind]
    by_cases hskip : f.kind = .recursive ∨ (!b.comp.purity.isPure) = true
    · rw [if_pos hskip, if_pos hskip]
      rfl
    · rw [if_neg hskip, if_neg hskip]
      cases b.comp.key? with
      | none => rfl
      | some k =>
        rw [Option.map_some]
        dsimp only
        rw [lookup_map_of_injective Key.relabel_injective]
        cases table.lookup k <;> rfl

theorem isMerged_relabel (b : Binding) :
    (s.relabel ρ).isMerged (b.mapIdent ρ.ident) = s.isMerged b := by
  show (replacement? _ (ρ.ident b.id).stamp).isSome = _
  rw [ρ.stamp_ident, relabel, replacement?_relabel, Option.isSome_map]
  rfl

end State

theorem prune_relabel (s : State) (kind : LetKind) (bs : List Binding) (body : Expr) :
    prune (s.relabel ρ) kind (Binding.mapIdents ρ.ident bs) (body.mapIdents ρ.ident) =
      (prune s kind bs body).mapIdents ρ.ident := by
  have hkept : (Binding.mapIdents ρ.ident bs).filter (fun b => !(s.relabel ρ).isMerged b) =
      (bs.filter fun b => !s.isMerged b).map (Binding.mapIdent ρ.ident) := by
    rw [Binding.mapIdents_eq_map, List.filter_map]
    refine congrArg _ (List.filter_congr fun b _ => ?_)
    exact congrArg not (s.isMerged_relabel b)
  unfold prune
  rw [hkept]
  cases bs.filter fun b => !s.isMerged b with
  | nil => rfl
  | cons b bs =>
    show Expr.letIn kind _ _ = Expr.letIn kind (Binding.mapIdents ρ.ident (b :: bs)) _
    rw [Binding.mapIdents_eq_map]

/-! ### in step -/

section
variable {α β : Type} {g : α → α} {k : β → β}

/-- From the relabeled state `x'` gives what `x` gives, with `g` on the value and relabeled. -/
def Tracks (ρ : Relabeling) (g : α → α) (x x' : Share α) : Prop :=
  ∀ s : State, x' (s.relabel ρ) = (g (x s).1, (x s).2.relabel ρ)

theorem tracks_pure {a b : α} (h : b = g a) : Tracks ρ g (pure a) (pure b) := by
  intro s
  rw [h]
  rfl

theorem tracks_get : Tracks ρ (State.relabel ρ) get get := fun _ => rfl

theorem tracks_modify {u u' : State → State} (h : ∀ s, u' (s.relabel ρ) = (u s).relabel ρ) :
    Tracks ρ id (modify u) (modify u') :=
  fun s => congrArg (Prod.mk ()) (h s)

theorem Tracks.bind {x x' : Share α} {f f' : α → Share β} (hx : Tracks ρ g x x')
    (hf : ∀ a, Tracks ρ k (f a) (f' (g a))) : Tracks ρ k (x >>= f) (x' >>= f') := by
  intro s
  show f' (x' (s.relabel ρ)).1 (x' (s.relabel ρ)).2 = _
  rw [hx s]
  exact hf (x s).1 (x s).2

end

end Sharing

open Sharing

mutual

theorem Comp.share_tracks (c : Comp) :
    Tracks ρ (Comp.mapIdents ρ.ident) c.share (c.mapIdents ρ.ident).share := by
  match c with
  | .branch cond thenArm elseArm =>
    simp only [Comp.mapIdents, Comp.share]
    refine tracks_get.bind fun s => thenArm.share_tracks.bind fun _ => elseArm.share_tracks.bind
      fun _ => tracks_pure ?_
    simp only [Comp.mapIdents, s.resolveImm_relabel]
  | .imm _ | .prim1 _ _ | .prim2 _ _ _ | .adt _ _ _ | .tuple _ | .tupleGet _ _ | .boxNew _
  | .unbox _ | .boxSet _ _ | .call _ _ | .callForeign _ _ | .fail _ =>
    exact tracks_get.bind fun s => tracks_pure (Comp.mapOperands_mapIdents s.resolveImm_relabel _)

theorem Binding.shares_tracks (bs : List Binding) : Tracks ρ (Binding.mapIdents ρ.ident)
    (Binding.shares bs) (Binding.shares (Binding.mapIdents ρ.ident bs)) := by
  match bs with
  | [] => exact tracks_pure rfl
  | ⟨id, comp, span⟩ :: bs =>
    simp only [Binding.mapIdents, Binding.shares]
    refine comp.share_tracks.bind fun c => ?_
    refine (tracks_modify fun s => s.register_relabel ⟨id, c, span⟩).bind fun _ => ?_
    exact (Binding.shares_tracks bs).bind fun _ => tracks_pure rfl

theorem Expr.share_tracks (e : Expr) :
    Tracks ρ (Expr.mapIdents ρ.ident) e.share (e.mapIdents ρ.ident).share := by
  match e with
  | .letIn kind bs body =>
    simp only [Expr.mapIdents, Expr.share]
    have hpush : ∀ s : State, (s.relabel ρ).push kind = (s.push kind).relabel ρ := fun _ => rfl
    refine (tracks_modify hpush).bind fun _ => ?_
    refine (Binding.shares_tracks bs).bind fun bs => body.share_tracks.bind fun body => ?_
    refine (tracks_modify State.pop_relabel).bind fun _ => ?_
    exact tracks_get.bind fun s => tracks_pure (prune_relabel s kind bs body)
  | .seq comp rest =>
    simp only [Expr.mapIdents, Expr.share]
    exact comp.share_tracks.bind fun _ => rest.share_tracks.bind fun _ => tracks_pure rfl
  | .comp comp =>
    simp only [Expr.mapIdents, Expr.share]
    exact comp.share_tracks.bind fun _ => tracks_pure rfl

end

theorem Func.share_tracks (f : Func) :
    Tracks ρ (Func.mapIdents ρ.ident) f.share (f.mapIdents ρ.ident).share :=
  f.body.share_tracks.bind fun _ => tracks_pure rfl

theorem Sharing.funcs_tracks (fs : List Func) : Tracks ρ (List.map (Func.mapIdents ρ.ident))
    (fs.mapM Func.share) ((fs.map (Func.mapIdents ρ.ident)).mapM Func.share) := by
  induction fs with
  | nil => exact tracks_pure rfl
  | cons f fs ih =>
    rw [List.map_cons, List.mapM_cons, List.mapM_cons]
    exact f.share_tracks.bind fun _ => ih.bind fun _ => tracks_pure rfl

namespace Program

theorem share_mapIdents (ρ : Relabeling) (p : Program) : (p.mapIdents ρ.ident).share =
    ⟨p.share.program.mapIdents ρ.ident, p.share.merges.map (Prod.map ρ.ident ρ.ident)⟩ := by
  have htracks : Tracks ρ (mapIdents ρ.ident) (shareProgram p)
      (shareProgram (p.mapIdents ρ.ident)) :=
    (funcs_tracks p.functions).bind fun _ => p.body.share_tracks.bind fun _ => tracks_pure rfl
  have hrun : (shareProgram (p.mapIdents ρ.ident)).run State.start =
      (((shareProgram p).run State.start).1.mapIdents ρ.ident,
        ((shareProgram p).run State.start).2.relabel ρ) := htracks State.start
  unfold share
  rw [hrun]
  exact congrArg (Outcome.mk _) List.map_reverse.symm

theorem merged_share_mapIdents (ρ : Relabeling) (p : Program) :
    (p.mapIdents ρ.ident).share.merged = p.share.merged := by
  rw [share_mapIdents]
  exact List.length_map _

end Program

end AnfWasm
