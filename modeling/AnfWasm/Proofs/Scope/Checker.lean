import AnfWasm.Proofs.Scope.Sites
import Mathlib.Data.List.Nodup

/-!
# The check decides well-formedness

The walk of `Program.check` keeps one set of visible stamps.  `Ready s Γ` says that this set is the
lexical scope `Γ` as long as nothing was reported, and `Step p news At s s'` says what a part of the
walk finds out:

* without a report, the binders `news` were new and the uses at the places `At` are in order;
* a first report is explained by one of these binders or places (`Blames`).

Taking a stamp out at the end of a let gives back the scope around it because a binder that hides
another one has been reported before.
-/

namespace AnfWasm

/-- the use keeps the rules where `Δ` is in scope -/
def Site.Sound (p : Program) (Δ : List Ident) : Site → Prop
  | .operand x => InScope Δ x
  | .call f n => p.Declares f n
  | .callForeign f n => p.DeclaresForeign f n

theorem Program.wellFormed_iff (p : Program) :
    p.WellFormed ↔ (stamps p.binders).Nodup ∧ ∀ Δ t, p.At Δ t → t.Sound p Δ := by
  constructor
  · intro h
    refine ⟨h.bound_once, fun Δ t hat => ?_⟩
    cases t with
    | operand x => exact h.operand hat
    | call f n => exact h.call hat
    | callForeign f n => exact h.callForeign hat
  · rintro ⟨hb, hs⟩
    exact ⟨hb, fun h => hs _ _ h, fun h => hs _ _ h, fun h => hs _ _ h⟩

section
variable {p : Program}

theorem Program.WellFormed.imports_nodup (h : p.WellFormed) :
    (p.imports.map fun i => i.id.stamp).Nodup := by
  have hb := h.bound_once
  rw [Program.binders, stamps_append, stamps_append, stamps_append] at hb
  have hi := hb.of_append_left.of_append_left.of_append_left
  rwa [stamps, List.map_map] at hi

theorem Program.WellFormed.functions_nodup (h : p.WellFormed) :
    (p.functions.map fun f => f.id.stamp).Nodup := by
  have hb := h.bound_once
  rw [Program.binders, stamps_append, stamps_append, stamps_append] at hb
  have hf := hb.of_append_left.of_append_left.of_append_right
  rwa [stamps, List.map_map] at hf

theorem Program.WellFormed.fresh_func (h : p.WellFormed) {f : Func} (hf : f ∈ p.functions) :
    Fresh [] f.binders := by
  have hb := h.bound_once
  rw [Program.binders, stamps_append, stamps_append] at hb
  have hfs := hb.of_append_left.of_append_right
  have hsub : f.binders.Sublist (p.functions.flatMap Func.binders) := by
    rw [List.flatMap_def]
    exact List.sublist_flatten_of_mem (List.mem_map.mpr ⟨f, hf, rfl⟩)
  exact ⟨hfs.sublist (hsub.map Ident.stamp), fun _ _ => List.not_mem_nil⟩

theorem Program.WellFormed.fresh_body (h : p.WellFormed) : Fresh [] p.body.binders := by
  have hb := h.bound_once
  rw [Program.binders, stamps_append] at hb
  exact ⟨hb.of_append_right, fun _ _ => List.not_mem_nil⟩

end

namespace Scope

/-- The violation is about one of the binders `news`, after those with the stamps `known`, or about
one of the places `At`. -/
def Blames (p : Program) (known : List UInt32) (news : List Ident)
    (At : List Ident → Site → Prop) : Violation → Prop
  | .unbound x => ∃ Δ, At Δ (.operand x) ∧ ¬InScope Δ x
  | .rebound x => x ∈ news ∧ (x.stamp ∈ known ∨ 2 ≤ (stamps news).count x.stamp)
  | .notAFunction f => (∃ Δ n, At Δ (.call f n)) ∧ ∀ g ∈ p.functions, g.id.stamp ≠ f.stamp
  | .notAnImport f => (∃ Δ n, At Δ (.callForeign f n)) ∧ ∀ i ∈ p.imports, i.id.stamp ≠ f.stamp
  | .arityMismatch f expected found => expected ≠ found ∧
      ((∃ Δ, At Δ (.call f found)) ∧ p.Declares f expected ∨
        (∃ Δ, At Δ (.callForeign f found)) ∧ p.DeclaresForeign f expected)

section
variable {p : Program} {known : List UInt32} {news more : List Ident}
  {At At' : List Ident → Site → Prop} {v : Violation}

theorem Blames.mono (h : Blames p known news At v) (hn : news.Sublist more)
    (hat : ∀ Δ t, At Δ t → At' Δ t) : Blames p known more At' v := by
  cases v with
  | unbound x =>
    obtain ⟨Δ, ha, hx⟩ := h
    exact ⟨Δ, hat _ _ ha, hx⟩
  | rebound x =>
    refine ⟨hn.subset h.1, h.2.imp_right fun h2 => Nat.le_trans h2 ?_⟩
    exact (hn.map Ident.stamp).count_le _
  | notAFunction f =>
    obtain ⟨⟨Δ, n, ha⟩, hf⟩ := h
    exact ⟨⟨Δ, n, hat _ _ ha⟩, hf⟩
  | notAnImport f =>
    obtain ⟨⟨Δ, n, ha⟩, hf⟩ := h
    exact ⟨⟨Δ, n, hat _ _ ha⟩, hf⟩
  | arityMismatch f e n =>
    obtain ⟨hne, ⟨⟨Δ, ha⟩, hd⟩ | ⟨⟨Δ, ha⟩, hd⟩⟩ := h
    · exact ⟨hne, .inl ⟨⟨Δ, hat _ _ ha⟩, hd⟩⟩
    · exact ⟨hne, .inr ⟨⟨Δ, hat _ _ ha⟩, hd⟩⟩

/-- the order of the binders does not matter -/
theorem Blames.perm (h : Blames p known news At v) (hn : news.Perm more) :
    Blames p known more At v := by
  cases v with
  | rebound x =>
    refine ⟨hn.subset h.1, h.2.imp_right fun h2 => ?_⟩
    rwa [stamps, ← (hn.map Ident.stamp).count_eq x.stamp]
  | _ => exact h

/-- A stamp that was bound by an earlier binder of the same list counts as one of the list. -/
theorem Blames.after {known' : List UInt32} (h : Blames p known' news At v)
    (hk : ∀ n ∈ known', n ∈ stamps more ∨ n ∈ known) : Blames p known (more ++ news) At v := by
  cases v with
  | rebound x =>
    obtain ⟨hx, hb⟩ := h
    have hmem : x.stamp ∈ stamps news := mem_stamps.mpr ⟨x, hx, rfl⟩
    have hone : 1 ≤ (stamps news).count x.stamp := List.one_le_count_iff.mpr hmem
    refine ⟨List.mem_append_right _ hx, ?_⟩
    rw [stamps_append, List.count_append]
    rcases hb with hb | hb
    · rcases hk _ hb with h1 | h1
      · have := List.one_le_count_iff.mpr h1
        exact .inr (by omega)
      · exact .inl h1
    · exact .inr (by omega)
  | _ => exact h

end

/-- What a part of the walk found out when it goes from `s` to `s'`. -/
structure Step (p : Program) (news : List Ident) (At : List Ident → Site → Prop)
    (s s' : Checker) : Prop where
  start : s'.first? = none → s.first? = none
  nodup : s'.first? = none → (stamps news).Nodup
  fresh : s'.first? = none → ∀ n ∈ stamps news, n ∉ s.bound
  bound : s'.first? = none → ∀ n, n ∈ s'.bound ↔ n ∈ stamps news ∨ n ∈ s.bound
  sound : s'.first? = none → ∀ Δ t, At Δ t → t.Sound p Δ
  blames : ∀ v, s'.first? = some v →
    s.first? = some v ∨ s.first? = none ∧ Blames p s.bound news At v

/-- As long as nothing was reported, what is visible is the scope `Γ`, and it is bound. -/
def Ready (s : Checker) (Γ : List Ident) : Prop :=
  s.first? = none → (∀ n, n ∈ s.visible ↔ n ∈ stamps Γ) ∧ ∀ n ∈ s.visible, n ∈ s.bound

namespace Step
variable {p : Program} {news more : List Ident} {At At' : List Ident → Site → Prop}
  {s s' s'' : Checker}

/-- the walk stays where it is when the uses are in order -/
theorem still (h : s.first? = none → ∀ Δ t, At Δ t → t.Sound p Δ) : Step p [] At s s where
  start e := e
  nodup _ := List.nodup_nil
  fresh _ _ hn := absurd hn List.not_mem_nil
  bound _ n := by simp [stamps]
  sound := h
  blames _ e := .inl e

theorem trans (h : Step p news At s s') (h' : Step p more At' s' s'') :
    Step p (news ++ more) (fun Δ t => At Δ t ∨ At' Δ t) s s'' where
  start e := h.start (h'.start e)
  nodup e := by
    have e' := h'.start e
    rw [stamps_append, List.nodup_append]
    refine ⟨h.nodup e', h'.nodup e, fun a ha b hb hab => ?_⟩
    exact h'.fresh e b hb ((h.bound e' b).mpr (.inl (hab ▸ ha)))
  fresh e n hn hs := by
    have e' := h'.start e
    rw [stamps_append, List.mem_append] at hn
    rcases hn with hn | hn
    · exact h.fresh e' n hn hs
    · exact h'.fresh e n hn ((h.bound e' n).mpr (.inr hs))
  bound e n := by
    rw [h'.bound e, h.bound (h'.start e), stamps_append, List.mem_append, or_assoc]
    exact or_left_comm
  sound e Δ t := by
    rintro (ha | ha)
    · exact h.sound (h'.start e) Δ t ha
    · exact h'.sound e Δ t ha
  blames v e := by
    rcases h'.blames v e with h1 | ⟨h1, hb⟩
    · rcases h.blames v h1 with h2 | ⟨h2, hb⟩
      · exact .inl h2
      · exact .inr ⟨h2, hb.mono (List.sublist_append_left _ _) fun _ _ => .inl⟩
    · refine .inr ⟨h.start h1, ?_⟩
      have hb' := hb.mono (List.Sublist.refl _) fun Δ t => Or.inr (a := At Δ t)
      exact hb'.after fun n hn => (h.bound h1 n).mp hn

/-- the same with the places and the binders told in another way -/
theorem congr (h : Step p news At s s') (hn : news.Perm more) (hat : ∀ Δ t, At Δ t ↔ At' Δ t) :
    Step p more At' s s' where
  start := h.start
  nodup e := (hn.map Ident.stamp).nodup_iff.mp (h.nodup e)
  fresh e n hm := h.fresh e n ((hn.map Ident.stamp).mem_iff.mpr hm)
  bound e n := by rw [h.bound e, stamps, stamps, (hn.map Ident.stamp).mem_iff]
  sound e Δ t ha := h.sound e Δ t ((hat Δ t).mpr ha)
  blames v e := (h.blames v e).imp_right fun ⟨h1, hb⟩ =>
    ⟨h1, (hb.perm hn).mono (List.Sublist.refl _) fun Δ t => (hat Δ t).mp⟩

/-- only what is visible has changed after the walk -/
theorem see {vs : List UInt32} (h : Step p news At s s') :
    Step p news At s { s' with visible := vs } :=
  ⟨h.start, h.nodup, h.fresh, h.bound, h.sound, h.blames⟩

end Step

/-! ### the operations of a checker -/

namespace Checker
variable {p : Program} {Γ : List Ident} {s : Checker}

theorem report_first (s : Checker) (v : Violation) : (s.report v).first? ≠ none := by
  unfold report
  cases h : s.first? <;> simp [h]

theorem report_eq_some {v w : Violation} (h : (s.report v).first? = some w) :
    s.first? = some w ∨ s.first? = none ∧ w = v := by
  unfold report at h
  cases hs : s.first? with
  | none =>
    simp only [hs, Option.some.injEq] at h
    exact .inr ⟨rfl, h.symm⟩
  | some u =>
    simp only [hs] at h
    exact .inl h

theorem step_report {news : List Ident} {At : List Ident → Site → Prop} {v : Violation}
    (h : Blames p s.bound news At v) : Step p news At s (s.report v) where
  start e := absurd e (report_first s v)
  nodup e := absurd e (report_first s v)
  fresh e := absurd e (report_first s v)
  bound e := absurd e (report_first s v)
  sound e := absurd e (report_first s v)
  blames _ e := (report_eq_some e).imp_right fun ⟨h1, hw⟩ => ⟨h1, hw ▸ h⟩

theorem ready_report (s : Checker) (v : Violation) (Γ : List Ident) : Ready (s.report v) Γ :=
  fun e => absurd e (report_first s v)

theorem bindGlobal_visible (s : Checker) (x : Ident) : (s.bindGlobal x).visible = s.visible := by
  unfold bindGlobal report
  split
  · split <;> rfl
  · rfl

theorem step_bindGlobal (p : Program) (s : Checker) (x : Ident) :
    Step p [x] (fun _ _ => False) s (s.bindGlobal x) := by
  unfold bindGlobal
  split
  · rename_i hx
    exact step_report ⟨List.mem_singleton_self x, .inl (List.contains_iff_mem.mp hx)⟩
  · rename_i hx
    have hx' : x.stamp ∉ s.bound := fun h => hx (List.contains_iff_mem.mpr h)
    exact {
      start := fun e => e
      nodup := fun _ => by simp [stamps]
      fresh := fun _ n hn => by
        rw [List.mem_singleton.mp hn]
        exact hx'
      bound := fun _ n => by simp [stamps]
      sound := fun _ _ _ h => h.elim
      blames := fun _ e => .inl e }

theorem step_bind (p : Program) (s : Checker) (x : Ident) :
    Step p [x] (fun _ _ => False) s (s.bind x) :=
  (step_bindGlobal p s x).see

theorem ready_bind (h : Ready s Γ) (x : Ident) : Ready (s.bind x) (x :: Γ) := by
  intro e
  have hst := step_bind default s x
  obtain ⟨hv, hb⟩ := h (hst.start e)
  have hvis : (s.bind x).visible = x.stamp :: s.visible :=
    congrArg (x.stamp :: ·) (bindGlobal_visible s x)
  rw [hvis]
  refine ⟨fun n => ?_, fun n hn => (hst.bound e n).mpr ?_⟩
  · rw [List.mem_cons, hv, stamps_cons, List.mem_cons]
  · rcases List.mem_cons.mp hn with rfl | hn
    · exact .inl (List.mem_singleton_self _)
    · exact .inr (hb n hn)

theorem step_bindAll (p : Program) (xs : List Ident) (s : Checker) :
    Step p xs (fun _ _ => False) s (xs.foldl bind s) := by
  induction xs generalizing s with
  | nil => exact .still fun _ _ _ h => h.elim
  | cons x xs ih =>
    exact ((step_bind p s x).trans (ih _)).congr (List.Perm.refl _) fun _ _ => or_self_iff

theorem ready_bindAll (xs : List Ident) (h : Ready s Γ) :
    Ready (xs.foldl bind s) (xs.reverse ++ Γ) := by
  induction xs generalizing s Γ with
  | nil => exact h
  | cons x xs ih =>
    rw [List.reverse_cons, List.append_assoc]
    exact ih (ready_bind h x)

theorem forgetAll_first (xs : List Ident) (s : Checker) :
    (xs.foldl forget s).first? = s.first? := by
  induction xs generalizing s with
  | nil => rfl
  | cons x xs ih => exact ih _

theorem forgetAll_bound (xs : List Ident) (s : Checker) : (xs.foldl forget s).bound = s.bound := by
  induction xs generalizing s with
  | nil => rfl
  | cons x xs ih => exact ih _

theorem mem_forgetAll (xs : List Ident) (s : Checker) (n : UInt32) :
    n ∈ (xs.foldl forget s).visible ↔ n ∈ s.visible ∧ n ∉ stamps xs := by
  induction xs generalizing s with
  | nil => simp [stamps]
  | cons x xs ih =>
    rw [List.foldl_cons, ih, stamps_cons, List.mem_cons, not_or, ← and_assoc]
    simp [forget]

/-- A let that bound nothing twice gives back the scope around it. -/
theorem leave {news xs : List Ident} {At : List Ident → Site → Prop} {s' : Checker}
    (hr : Ready s Γ) (h : Step p news At s s') (hr' : Ready s' (xs.reverse ++ Γ))
    (hxs : xs ⊆ news) : Step p news At s (xs.foldl forget s') ∧ Ready (xs.foldl forget s') Γ := by
  have hfirst := forgetAll_first xs s'
  have hbound := forgetAll_bound xs s'
  constructor
  · exact {
      start := fun e => h.start (hfirst ▸ e)
      nodup := fun e => h.nodup (hfirst ▸ e)
      fresh := fun e => h.fresh (hfirst ▸ e)
      bound := fun e n => by rw [hbound, h.bound (hfirst ▸ e)]
      sound := fun e => h.sound (hfirst ▸ e)
      blames := fun v e => h.blames v (hfirst ▸ e) }
  · intro e
    rw [hfirst] at e
    obtain ⟨hv, hb⟩ := hr' e
    obtain ⟨hv0, hb0⟩ := hr (h.start e)
    -- a binder of the let is not in the scope around it, since all of that is bound
    have hout : ∀ n ∈ stamps Γ, n ∉ stamps xs := by
      intro n hn hx
      obtain ⟨x, hmem, rfl⟩ := mem_stamps.mp hx
      exact h.fresh e _ (mem_stamps.mpr ⟨x, hxs hmem, rfl⟩) (hb0 _ ((hv0 _).mpr hn))
    refine ⟨fun n => ?_, fun n hm => ?_⟩
    · rw [mem_forgetAll, hv, mem_stamps_reverse_append]
      constructor
      · rintro ⟨h1 | h1, h2⟩
        · exact absurd h1 h2
        · exact h1
      · intro h1
        exact ⟨.inr h1, hout n h1⟩
    · rw [hbound]
      exact hb n ((mem_forgetAll xs s' n).mp hm).1

theorem step_imm (h : Ready s Γ) (a : Imm) :
    Step p [] (AtOperands Γ [a]) s (s.imm a) ∧ Ready (s.imm a) Γ := by
  cases a with
  | const c =>
    refine ⟨.still fun _ Δ t ht => ?_, h⟩
    obtain ⟨y, hy, _⟩ := ht
    exact absurd hy (by simp)
  | id x =>
    show Step p [] _ s (if s.visible.contains x.stamp then s else s.report (.unbound x)) ∧
      Ready (if s.visible.contains x.stamp then s else s.report (.unbound x)) Γ
    by_cases hx : s.visible.contains x.stamp = true
    · rw [if_pos hx]
      refine ⟨.still fun e Δ t ht => ?_, h⟩
      obtain ⟨y, hy, rfl, rfl⟩ := ht
      obtain rfl : y = x := by simpa using hy
      exact inScope_iff.mpr (((h e).1 _).mp (List.contains_iff_mem.mp hx))
    · rw [if_neg hx]
      refine ⟨?_, ready_report s _ Γ⟩
      cases hf : s.first? with
      | some v =>
        have hs : s.report (.unbound x) = s := by
          unfold report
          simp [hf]
        rw [hs]
        exact .still fun e => absurd e (by simp [hf])
      | none =>
        refine step_report ⟨Γ, ⟨x, List.mem_singleton_self _, rfl, rfl⟩, fun hin => hx ?_⟩
        exact List.contains_iff_mem.mpr (((h hf).1 _).mpr (inScope_iff.mp hin))

theorem step_imms (args : List Imm) (h : Ready s Γ) :
    Step p [] (AtOperands Γ args) s (s.imms args) ∧ Ready (s.imms args) Γ := by
  induction args generalizing s with
  | nil => exact ⟨.still fun _ _ _ ht => absurd ht atOperands_nil, h⟩
  | cons a args ih =>
    obtain ⟨h1, hr⟩ := step_imm (p := p) h a
    obtain ⟨h2, hr2⟩ := ih hr
    exact ⟨(h1.trans h2).congr (List.Perm.refl _) fun _ _ => atOperands_cons.symm, hr2⟩

section
variable {α : Type} (key : α → UInt32) (val : α → Nat) (as : List α) (n : UInt32)

theorem lookup_map_eq_some {m : Nat} (h : (as.map fun a => (key a, val a)).lookup n = some m) :
    ∃ a ∈ as, key a = n ∧ val a = m := by
  induction as with
  | nil => exact absurd h (by simp)
  | cons a as ih =>
    rw [List.map_cons, List.lookup_cons] at h
    by_cases hk : n = key a
    · rw [beq_iff_eq.mpr hk] at h
      exact ⟨a, List.mem_cons_self, hk.symm, Option.some.inj h⟩
    · rw [beq_eq_false_iff_ne.mpr hk] at h
      obtain ⟨b, hb, he⟩ := ih h
      exact ⟨b, List.mem_cons_of_mem _ hb, he⟩

theorem lookup_map_eq_none (h : (as.map fun a => (key a, val a)).lookup n = none) :
    ∀ a ∈ as, key a ≠ n := by
  intro a ha he
  rw [List.lookup_eq_none_iff] at h
  exact absurd (h _ (List.mem_map.mpr ⟨a, ha, rfl⟩)) (by simp [he])

end

/-- A call is in order, or one of the three reports about callees is right. -/
theorem step_callee {table : List (UInt32 × Nat)} {missing : Ident → Violation} {f : Ident}
    {found : Nat} {t : Site} (h : Ready s Γ)
    (hnone : table.lookup f.stamp = none →
      Blames p s.bound [] (fun Δ u => Δ = Γ ∧ u = t) (missing f))
    (hsome : ∀ n, table.lookup f.stamp = some n → n ≠ found →
      Blames p s.bound [] (fun Δ u => Δ = Γ ∧ u = t) (.arityMismatch f n found))
    (hok : table.lookup f.stamp = some found → t.Sound p Γ) :
    Step p [] (fun Δ u => Δ = Γ ∧ u = t) s (s.callee table missing f found) ∧
      Ready (s.callee table missing f found) Γ := by
  unfold callee
  cases hl : table.lookup f.stamp with
  | none => exact ⟨step_report (hnone hl), ready_report s _ Γ⟩
  | some n =>
    by_cases hn : n = found
    · simp only [if_pos hn]
      refine ⟨.still fun _ Δ u hu => ?_, h⟩
      rw [hu.1, hu.2]
      exact hok (hn ▸ hl)
    · simp only [if_neg hn]
      exact ⟨step_report (hsome n hl hn), ready_report s _ Γ⟩

theorem step_call (f : Ident) (n : Nat) (h : Ready s Γ) :
    Step p [] (fun Δ u => Δ = Γ ∧ u = .call f n) s
        (s.callee p.globals.functions .notAFunction f n) ∧
      Ready (s.callee p.globals.functions .notAFunction f n) Γ := by
  have hdecl : ∀ m, p.globals.functions.lookup f.stamp = some m → p.Declares f m :=
    fun m hm => lookup_map_eq_some _ _ _ _ hm
  exact step_callee h (fun hn => ⟨⟨Γ, n, rfl, rfl⟩, lookup_map_eq_none _ _ _ _ hn⟩)
    (fun m hm hne => ⟨hne, .inl ⟨⟨Γ, rfl, rfl⟩, hdecl m hm⟩⟩) (hdecl n)

theorem step_callForeign (f : Ident) (n : Nat) (h : Ready s Γ) :
    Step p [] (fun Δ u => Δ = Γ ∧ u = .callForeign f n) s
        (s.callee p.globals.imports .notAnImport f n) ∧
      Ready (s.callee p.globals.imports .notAnImport f n) Γ := by
  have hdecl : ∀ m, p.globals.imports.lookup f.stamp = some m → p.DeclaresForeign f m :=
    fun m hm => lookup_map_eq_some _ _ _ _ hm
  exact step_callee h (fun hn => ⟨⟨Γ, n, rfl, rfl⟩, lookup_map_eq_none _ _ _ _ hn⟩)
    (fun m hm hne => ⟨hne, .inr ⟨⟨Γ, rfl, rfl⟩, hdecl m hm⟩⟩) (hdecl n)

/-! ### the walk -/

theorem step_plain {c : Comp} (hc : c.IsPlain) (h : Ready s Γ) :
    Step p c.binders (c.At Γ) s (comp p.globals s c) ∧ Ready (comp p.globals s c) Γ := by
  have hcomp : comp p.globals s c = s.imms c.operands := by
    cases c with
    | call | callForeign | branch => exact hc.elim
    | _ => simp only [comp]
  obtain ⟨h1, hr⟩ := step_imms (p := p) c.operands h
  rw [hcomp, Comp.binders_of_arms hc.arms]
  exact ⟨h1.congr (List.Perm.refl _) fun _ _ => hc.at_iff.symm, hr⟩

mutual

theorem step_comp (c : Comp) {s : Checker} {Γ : List Ident} (h : Ready s Γ) :
    Step p c.binders (c.At Γ) s (comp p.globals s c) ∧ Ready (comp p.globals s c) Γ := by
  match c with
  | .call f args =>
    obtain ⟨h1, hr⟩ := step_call (p := p) f args.length h
    obtain ⟨h2, hr⟩ := step_imms (p := p) args hr
    exact ⟨(h1.trans h2).congr (List.Perm.refl _) fun _ _ => Comp.at_call.symm, hr⟩
  | .callForeign f args =>
    obtain ⟨h1, hr⟩ := step_callForeign (p := p) f args.length h
    obtain ⟨h2, hr⟩ := step_imms (p := p) args hr
    exact ⟨(h1.trans h2).congr (List.Perm.refl _) fun _ _ => Comp.at_callForeign.symm, hr⟩
  | .branch cond thenArm elseArm =>
    obtain ⟨h1, hr⟩ := step_imm (p := p) h cond
    obtain ⟨h2, hr⟩ := step_expr thenArm hr
    obtain ⟨h3, hr⟩ := step_expr elseArm hr
    exact ⟨(h1.trans (h2.trans h3)).congr (List.Perm.refl _) fun _ _ => Comp.at_branch.symm, hr⟩
  | .imm _ | .prim1 _ _ | .prim2 _ _ _ | .adt _ _ _ | .tuple _ | .tupleGet _ _ | .boxNew _
  | .unbox _ | .boxSet _ _ | .fail _ => exact step_plain trivial h

theorem step_sequential (bs : List Binding) {s : Checker} {Γ : List Ident} (h : Ready s Γ) :
    Step p (Binding.binders bs) (Binding.At .sequential Γ bs) s (sequential p.globals s bs) ∧
      Ready (sequential p.globals s bs) ((ids bs).reverse ++ Γ) := by
  match bs with
  | [] => exact ⟨.still fun _ _ _ ht => ht.elim, h⟩
  | ⟨id, c, span⟩ :: bs =>
    obtain ⟨h1, hr⟩ := step_comp c h
    have h2 := step_bind p (comp p.globals s c) id
    obtain ⟨h3, hr⟩ := step_sequential bs (ready_bind hr id)
    refine ⟨(h1.trans (h2.trans h3)).congr (List.Perm.refl _) fun Δ t => ?_, ?_⟩
    · rw [Binding.At, LetKind.reach, false_or]
    · show Ready _ ((id :: ids bs).reverse ++ Γ)
      rw [List.reverse_cons, List.append_assoc]
      exact hr

theorem step_group (bs : List Binding) {s : Checker} {Γ : List Ident} (h : Ready s Γ) :
    Step p (rhsBinders bs) (Binding.At .recursive Γ bs) s (group p.globals s bs) ∧
      Ready (group p.globals s bs) Γ := by
  match bs with
  | [] => exact ⟨.still fun _ _ _ ht => ht.elim, h⟩
  | ⟨id, c, span⟩ :: bs =>
    obtain ⟨h1, hr⟩ := step_comp c h
    obtain ⟨h2, hr⟩ := step_group bs hr
    exact ⟨(h1.trans h2).congr (List.Perm.refl _) fun _ _ => Iff.rfl, hr⟩

theorem step_expr (e : Expr) {s : Checker} {Γ : List Ident} (h : Ready s Γ) :
    Step p e.binders (e.At Γ) s (expr p.globals s e) ∧ Ready (expr p.globals s e) Γ := by
  match e with
  | .letIn .sequential bs body =>
    obtain ⟨h1, hr⟩ := step_sequential bs h
    obtain ⟨h2, hr⟩ := step_expr body hr
    have h3 := (h1.trans h2).congr (List.Perm.refl _) fun _ _ => Expr.at_let.symm
    exact leave h h3 hr (List.subset_append_of_subset_left _ (ids_subset_binders bs))
  | .letIn .recursive bs body =>
    have h1 := step_bindAll p (ids bs) s
    obtain ⟨h2, hr⟩ := step_group bs (ready_bindAll (ids bs) h)
    obtain ⟨h3, hr⟩ := step_expr body hr
    have h4 := ((h1.trans h2).trans h3).congr ((binders_perm bs).append_right _)
      fun Δ t => (or_congr_left (iff_of_eq (false_or _))).trans Expr.at_let.symm
    exact leave h h4 hr (List.subset_append_of_subset_left _ (ids_subset_binders bs))
  | .seq c rest =>
    obtain ⟨h1, hr⟩ := step_comp c h
    obtain ⟨h2, hr⟩ := step_expr rest hr
    exact ⟨(h1.trans h2).congr (List.Perm.refl _) fun _ _ => Expr.at_seq.symm, hr⟩
  | .comp c =>
    obtain ⟨h1, hr⟩ := step_comp c h
    exact ⟨h1.congr (List.Perm.refl _) fun _ _ => Expr.at_comp.symm, hr⟩

end

theorem step_func (f : Func) (h : Ready s Γ) :
    Step p f.binders f.At s (func p.globals s f) ∧ Ready (func p.globals s f) Γ := by
  have hstart : Ready { s with visible := [] } [] :=
    fun _ => ⟨fun n => by simp [stamps], fun n hn => absurd hn List.not_mem_nil⟩
  have h0 : Step p [] (fun _ _ => False) s { s with visible := [] } :=
    Step.see (.still fun _ _ _ ht => ht.elim)
  have h1 := step_bindAll p f.params { s with visible := [] }
  have hr := ready_bindAll f.params hstart
  rw [List.append_nil] at hr
  obtain ⟨h2, -⟩ := step_expr (p := p) f.body hr
  have h3 : Step p f.binders f.At s _ := (h0.trans (h1.trans h2)).congr (List.Perm.refl _)
    fun Δ t => by simp only [false_or]; rfl
  refine ⟨h3.see, fun e => ?_⟩
  obtain ⟨hv, hb⟩ := h (h3.start e)
  exact ⟨hv, fun n hn => (h3.bound e n).mpr (.inr (hb n hn))⟩

theorem step_funcs (fs : List Func) (h : Ready s Γ) :
    Step p (fs.flatMap Func.binders) (fun Δ t => ∃ f ∈ fs, f.At Δ t) s
        (fs.foldl (func p.globals) s) ∧ Ready (fs.foldl (func p.globals) s) Γ := by
  induction fs generalizing s with
  | nil => exact ⟨.still fun _ _ _ ht => absurd ht (by simp), h⟩
  | cons f fs ih =>
    obtain ⟨h1, hr⟩ := step_func (p := p) f h
    obtain ⟨h2, hr⟩ := ih hr
    refine ⟨(h1.trans h2).congr (List.Perm.refl _) fun Δ t => ?_, hr⟩
    simp

theorem step_globals (p : Program) (xs : List Ident) (h : Ready s []) :
    Step p xs (fun _ _ => False) s (xs.foldl bindGlobal s) ∧
      Ready (xs.foldl bindGlobal s) [] := by
  induction xs generalizing s with
  | nil => exact ⟨.still fun _ _ _ ht => ht.elim, h⟩
  | cons x xs ih =>
    have h1 := step_bindGlobal p s x
    have hr : Ready (s.bindGlobal x) [] := by
      intro e
      obtain ⟨hv, hb⟩ := h (h1.start e)
      rw [bindGlobal_visible]
      exact ⟨hv, fun n hn => (h1.bound e n).mpr (.inr (hb n hn))⟩
    obtain ⟨h2, hr⟩ := ih hr
    exact ⟨(h1.trans h2).congr (List.Perm.refl _) fun _ _ => or_self_iff, hr⟩

theorem step_program (p : Program) : Step p p.binders p.At start (program p) := by
  have h0 : Ready start [] := fun _ =>
    ⟨fun n => by simp [stamps, start], fun n hn => absurd hn List.not_mem_nil⟩
  obtain ⟨h1, hr⟩ := step_globals p (p.imports.map Import.id) h0
  obtain ⟨h2, hr⟩ := step_globals p (p.functions.map Func.id) hr
  obtain ⟨h3, hr⟩ := step_funcs (p := p) p.functions hr
  obtain ⟨h4, -⟩ := step_expr (p := p) p.body hr
  refine (((h1.trans h2).trans h3).trans h4).congr (List.Perm.refl _) fun Δ t => ?_
  simp only [false_or]
  rfl

end Checker

/-- What a report of the whole walk blames is there. -/
theorem Blames.genuine {p : Program} {v : Violation} (h : Blames p [] p.binders p.At v) :
    v.Genuine p := by
  cases v with
  | rebound x => exact ⟨h.1, h.2.resolve_left List.not_mem_nil⟩
  | _ => exact h

end Scope

open Scope

/-- a genuine violation is one of the rules broken -/
theorem Violation.Genuine.not_wellFormed {p : Program} {v : Violation} (h : v.Genuine p) :
    ¬p.WellFormed := by
  intro hw
  cases v with
  | unbound x =>
    obtain ⟨Δ, hat, hx⟩ := h
    exact hx (hw.operand hat)
  | rebound x =>
    have := List.nodup_iff_count.mp hw.bound_once x.stamp
    have := h.2
    omega
  | notAFunction f =>
    obtain ⟨⟨Δ, n, hat⟩, hf⟩ := h
    obtain ⟨g, hg, he, -⟩ := hw.call hat
    exact hf g hg he
  | notAnImport f =>
    obtain ⟨⟨Δ, n, hat⟩, hf⟩ := h
    obtain ⟨i, hi, he, -⟩ := hw.callForeign hat
    exact hf i hi he
  | arityMismatch f expected found =>
    obtain ⟨hne, ⟨⟨Δ, hat⟩, g, hg, he, hn⟩ | ⟨⟨Δ, hat⟩, i, hi, he, hn⟩⟩ := h
    · obtain ⟨g', hg', he', hn'⟩ := hw.call hat
      have := List.inj_on_of_nodup_map hw.functions_nodup hg hg' (he.trans he'.symm)
      exact hne (hn ▸ hn' ▸ this ▸ rfl)
    · obtain ⟨i', hi', he', hn'⟩ := hw.callForeign hat
      have := List.inj_on_of_nodup_map hw.imports_nodup hi hi' (he.trans he'.symm)
      exact hne (hn ▸ hn' ▸ this ▸ rfl)

theorem Program.genuine_of_check {p : Program} {v : Violation} (h : p.check = .error v) :
    v.Genuine p := by
  unfold Program.check at h
  cases hf : (Checker.program p).first? with
  | none => exact absurd h (by simp [hf])
  | some w =>
    obtain rfl : w = v := by simpa [hf] using h
    rcases (Checker.step_program p).blames w hf with h | ⟨-, h⟩
    · exact absurd h (by simp [Checker.start])
    · exact h.genuine

theorem Program.check_ok_iff (p : Program) : p.check = .ok () ↔ p.WellFormed := by
  constructor
  · intro h
    have hf : (Checker.program p).first? = none := by
      unfold Program.check at h
      cases hf : (Checker.program p).first? with
      | none => rfl
      | some v => exact absurd h (by simp [hf])
    have hs := Checker.step_program p
    exact p.wellFormed_iff.mpr ⟨hs.nodup hf, hs.sound hf⟩
  · intro hw
    cases hc : p.check with
    | ok u => rfl
    | error v => exact absurd hw (Program.genuine_of_check hc).not_wellFormed

/-- **The check decides well-formedness, and what it reports is there.** -/
theorem Program.check_exact (p : Program) :
    (p.check = .ok () ↔ p.WellFormed) ∧ ∀ v, p.check = .error v → v.Genuine p :=
  ⟨p.check_ok_iff, fun _ => Program.genuine_of_check⟩

/-- the second arm of a branch uses a binder of the first one -/
example : (Program.ofBody (.comp (.branch (.bool true)
    (.letOne ⟨"x", 0⟩ (.imm (.int 1)) (.imm (.id ⟨"x", 0⟩))) (.imm (.id ⟨"x", 0⟩))))).check
      = .error (.unbound ⟨"x", 0⟩) := rfl

end AnfWasm
