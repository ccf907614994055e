import AnfWasm.Proofs.Sharing.Hooks

/-!
# The states that sharing comes to

`Reachable` are the states after any hooks whose binders are new: their stamps are not among those
`known` to the state, in its table or its replacements.  In such a state nothing that can stand for
others is itself replaced (`Reachable.settled`), so replacements are at an end after one step
(`Reachable.follow?_eq`).

The table is `Balanced` in every state, with new binders or not: each of its keys is in one open
region, once.  This is why keys can be taken out by content when a region is closed.
-/

namespace AnfWasm

namespace Sharing

variable {s : State}

/-! ### balance -/

/-- The keys of the table are those of the open regions, and none of them is there twice. -/
structure State.Balanced (s : State) : Prop where
  nodup : (s.table.map Prod.fst).Nodup
  perm : (s.table.map Prod.fst).Perm (s.regions.flatMap Region.keys)

theorem filter_append_of_disjoint {as bs : List Key} (h : ∀ a ∈ as, ∀ b ∈ bs, a ≠ b) :
    (as ++ bs).filter (fun k => !as.contains k) = bs := by
  rw [List.filter_append]
  have hleft : as.filter (fun k => !as.contains k) = [] := by
    rw [List.filter_eq_nil_iff]
    intro k hk
    simpa using hk
  have hright : bs.filter (fun k => !as.contains k) = bs := by
    rw [List.filter_eq_self]
    intro k hk
    simpa using fun hk' => h k hk' k hk rfl
  rw [hleft, hright, List.nil_append]

namespace State.Balanced

theorem start : State.start.Balanced := ⟨List.nodup_nil, .refl _⟩

theorem push (h : s.Balanced) (kind : LetKind) : (s.push kind).Balanced :=
  ⟨h.nodup, h.perm⟩

/-- What is taken out of the table with a region are the keys of that region and no others. -/
theorem pop (h : s.Balanced) : s.pop.Balanced := by
  unfold State.pop
  cases hf : s.regions with
  | nil => exact h
  | cons f fs =>
    have hperm := h.perm
    rw [hf, List.flatMap_cons] at hperm
    have hrest := filter_append_of_disjoint
      (List.nodup_append.mp (hperm.nodup_iff.mp h.nodup)).2.2
    have hkeys : (s.table.filter fun e => !f.keys.contains e.1).map Prod.fst
        = (s.table.map Prod.fst).filter fun k => !f.keys.contains k := by
      rw [List.filter_map]
      rfl
    constructor
    · show ((s.table.filter fun e => !f.keys.contains e.1).map Prod.fst).Nodup
      rw [hkeys]
      exact h.nodup.filter _
    · show ((s.table.filter fun e => !f.keys.contains e.1).map Prod.fst).Perm
        (fs.flatMap Region.keys)
      rw [hkeys, ← hrest]
      exact hperm.filter _

theorem register (h : s.Balanced) (b : Binding) : (s.register b).Balanced := by
  rcases s.register_cases b with he | ⟨k, x, -, he⟩ | ⟨k, f, fs, hf, hl, he⟩
  · rw [he]
    exact h
  · rw [he]
    exact ⟨h.nodup, h.perm⟩
  · have hperm := h.perm
    rw [hf, List.flatMap_cons] at hperm
    have hnew : k ∉ s.table.map Prod.fst := by
      intro hk
      obtain ⟨e, hmem, rfl⟩ := List.mem_map.mp hk
      exact absurd (List.lookup_eq_none_iff.mp hl e hmem) (by simp)
    rw [he]
    exact ⟨List.nodup_cons.mpr ⟨hnew, h.nodup⟩, hperm.cons k⟩

end State.Balanced

/-! ### what is known to a state -/

/-- the stamps that occur in the table or among the replacements -/
def State.known (s : State) : List UInt32 :=
  (s.table.map fun e => e.2.stamp) ++ s.merges.flatMap fun m => [m.1.stamp, m.2.stamp]

theorem State.mem_known_of_table {k : Key} {a : Ident} (h : (k, a) ∈ s.table) :
    a.stamp ∈ s.known :=
  List.mem_append_left _ (List.mem_map.mpr ⟨_, h, rfl⟩)

theorem State.mem_known_of_replacement {n : UInt32} {a : Ident}
    (h : replacement? s.merges n = some a) : n ∈ s.known ∧ a.stamp ∈ s.known := by
  obtain ⟨m, hm, rfl⟩ := Option.map_eq_some_iff.mp h
  have hmem := List.mem_of_find?_eq_some hm
  obtain rfl : m.1.stamp = n := by simpa using List.find?_some hm
  have hsub : ∀ x ∈ [m.1.stamp, m.2.stamp], x ∈ s.known := fun x hx =>
    List.mem_append_right _ (List.mem_flatMap.mpr ⟨m, hmem, hx⟩)
  exact ⟨hsub _ List.mem_cons_self, hsub _ (List.mem_cons_of_mem _ List.mem_cons_self)⟩

theorem Settled.known {K : List UInt32} (h : Settled K s) : Settled s.known s where
  replaced e := (State.mem_known_of_replacement e).1
  target e := ⟨(State.mem_known_of_replacement e).2, (h.target e).2⟩
  table e := ⟨State.mem_known_of_table e, (h.table e).2⟩

/-- A state that is left keeps its replacements, and nothing enters its table. -/
theorem State.pop_keeps (s : State) : s.pop.merges = s.merges ∧ ∀ e ∈ s.pop.table, e ∈ s.table := by
  unfold State.pop
  split
  · exact ⟨rfl, fun _ he => he⟩
  · exact ⟨rfl, fun _ he => List.mem_of_mem_filter he⟩

theorem State.known_pop : ∀ n ∈ s.pop.known, n ∈ s.known := by
  intro n hn
  obtain ⟨hm, ht⟩ := s.pop_keeps
  rw [State.known, hm] at hn
  rcases List.mem_append.mp hn with hn | hn
  · obtain ⟨e, he, rfl⟩ := List.mem_map.mp hn
    exact State.mem_known_of_table (ht e he)
  · exact List.mem_append_right _ hn

theorem State.known_register (b : Binding) :
    ∀ n ∈ (s.register b).known, n ∈ b.id.stamp :: s.known := by
  intro n hn
  rcases s.register_cases b with he | ⟨k, x, hx, he⟩ | ⟨k, f, fs, -, -, he⟩
  · rw [he] at hn
    exact List.mem_cons_of_mem _ hn
  · rw [he, State.known, List.flatMap_cons] at hn
    rcases List.mem_append.mp hn with hn | hn
    · exact List.mem_cons_of_mem _ (List.mem_append_left _ hn)
    rcases List.mem_append.mp hn with hn | hn
    · rcases List.mem_pair.mp hn with rfl | rfl
      · exact List.mem_cons_self
      · exact List.mem_cons_of_mem _ (State.mem_known_of_table hx)
    · exact List.mem_cons_of_mem _ (List.mem_append_right _ hn)
  · rw [he] at hn
    exact hn

/-! ### reachable states -/

/-- The states that the hooks lead to, when the stamp of each binding is new to the state. -/
inductive Reachable : State → Prop
  | start : Reachable .start
  | push {s : State} (kind : LetKind) : Reachable s → Reachable (s.push kind)
  | pop {s : State} : Reachable s → Reachable s.pop
  | register {s : State} (b : Binding) : b.id.stamp ∉ s.known → Reachable s →
      Reachable (s.register b)

namespace Reachable

theorem balanced (h : Reachable s) : s.Balanced := by
  induction h with
  | start => exact .start
  | push kind _ ih => exact ih.push kind
  | pop _ ih => exact ih.pop
  | register b _ _ ih => exact ih.register b

/-- A binder enters the table or the replacements and never both. -/
theorem settled (h : Reachable s) : Settled s.known s := by
  induction h with
  | start => exact settled_start _
  | push kind _ ih => exact ih.congr rfl fun _ he => he
  | @pop s _ ih => exact (ih.congr s.pop_keeps.1 s.pop_keeps.2).known
  | register b hb _ ih => exact (Pass.register ih b hb).settled.known

theorem follow?_eq (h : Reachable s) {limit : Nat} (hl : 1 ≤ limit) (x : Ident) :
    follow? s.merges limit x = some (s.resolve x) := by
  obtain ⟨n, rfl⟩ := Nat.exists_eq_add_of_le' hl
  suffices ∃ y, follow? s.merges (n + 1) x = some y by
    obtain ⟨y, hy⟩ := this
    rw [hy, resolve_of_follow? hy]
  cases hr : replacement? s.merges x.stamp with
  | none => exact ⟨x, follow?_of_none hr _⟩
  | some y =>
    refine ⟨y, ?_⟩
    rw [follow?_of_some hr]
    exact follow?_of_none (h.settled.target hr).2 n

end Reachable

/-- A reachable state, and binders to come that are new to it. -/
def Expects (xs : List Ident) (s : State) : Prop :=
  Reachable s ∧ Fresh s.known xs

theorem invariant_expects : Invariant Expects where
  push kind h := ⟨.push kind h.1, h.2⟩
  pop h := ⟨.pop h.1, h.2.mono State.known_pop⟩
  register b h := by
    obtain ⟨hb, hf⟩ := h.2.cons
    exact ⟨.register b hb h.1, hf.mono (State.known_register b)⟩

theorem invariant_balanced : Invariant fun _ s => s.Balanced where
  push kind h := h.push kind
  pop h := h.pop
  register b h := h.register b

/-- From a reachable state a walk gets to its end, and it comes through reachable states. -/
theorem Mirrors.reaches {α : Type} {limit : Nat} {news : List Ident} {x : Walk α} {r : α × State}
    (h : Mirrors limit Expects s news x r) (hl : 1 ≤ limit) (hs : Reachable s)
    (hf : Fresh s.known news) (past : List State) :
    ∃ seen, x ⟨s, past⟩ = .ok r.1 ⟨r.2, past ++ seen⟩ ∧ ∀ u ∈ seen, Reachable u := by
  have hleads := h past [] (by rw [List.append_nil]; exact ⟨hs, hf⟩)
  generalize hr : x ⟨s, past⟩ = res at hleads
  cases hleads with
  | @ok seen hseen _ =>
    refine ⟨seen, rfl, fun u hu => ?_⟩
    obtain ⟨xs, hu, -⟩ := hseen u hu
    exact hu
  | endless _ ht hx =>
    obtain ⟨xs, ht, -⟩ := ht
    rw [ht.follow?_eq hl] at hx
    exact absurd hx (by simp)

/-! ### main results -/

/-- Following replacements takes one step at most wherever the pass has come to, so it ends on every
program that binds no stamp twice, free variables or not. -/
theorem walk_ends (p : Program) (h : (stamps p.lets).Nodup) {limit : Nat} (hl : 1 ≤ limit) :
    ∃ t : Trail, walk limit p .start = .ok p.share.program t ∧
      t.state.merges.reverse = p.share.merges ∧
      ∀ s ∈ t.past,
        (∀ k a, (k, a) ∈ s.table → replacement? s.merges a.stamp = none) ∧
        (∀ n a, replacement? s.merges n = some a → replacement? s.merges a.stamp = none) ∧
        ∀ x, follow? s.merges 1 x = some (s.resolve x) := by
  obtain ⟨seen, hwalk, hseen⟩ := (walk_mirrors invariant_expects limit p).reaches hl .start
    ⟨h, fun _ _ => List.not_mem_nil⟩ [.start]
  refine ⟨⟨(shareProgram p .start).2, [State.start] ++ seen⟩, hwalk, rfl, fun s hs => ?_⟩
  have hr : Reachable s := by
    rcases List.mem_cons.mp hs with rfl | hs
    · exact .start
    · exact hseen s hs
  exact ⟨fun k a ha => (hr.settled.table ha).2, fun n a ha => (hr.settled.target ha).2,
    hr.follow?_eq (Nat.le_refl 1)⟩

/-- Tuples of a free variable, in lets after one such tuple. -/
def looseRest : Expr :=
  .letOne ⟨"b", 2⟩ (.tuple [.id ⟨"z", 9⟩])
    (.letOne ⟨"c", 3⟩ (.tuple [.id ⟨"a", 1⟩])
      (.letOne ⟨"d", 4⟩ (.tuple [.id ⟨"b", 2⟩])
        (.comp (.tuple [.id ⟨"c", 3⟩, .id ⟨"d", 4⟩]))))

def loose : Program where
  source := none
  imports := []
  functions := []
  body := .letOne ⟨"a", 1⟩ (.tuple [.id ⟨"z", 9⟩]) looseRest

theorem walk_ends_loose : (stamps loose.lets).Nodup ∧ loose.share.merged = 2 ∧
    ∃ t : Trail, walk 1 loose .start = .ok loose.share.program t ∧
      ∀ s ∈ t.past, ∀ x, follow? s.merges 1 x = some (s.resolve x) := by
  have hnodup : (stamps loose.lets).Nodup := by decide
  obtain ⟨t, hwalk, -, hpast⟩ := walk_ends loose hnodup (Nat.le_refl 1)
  exact ⟨hnodup, rfl, t, hwalk, fun s hs => (hpast s hs).2.2⟩

-- a stamp that is bound twice may come to replace itself
example : ∃ t, walk 5 { loose with
    body := .letOne ⟨"a", 1⟩ (.tuple []) (.letOne ⟨"a", 1⟩ (.tuple [])
      (.comp (.imm (.id ⟨"a", 1⟩)))) } .start = .error (.endless ⟨"a", 1⟩) t :=
  ⟨_, rfl⟩

/-- An expression whose binders are new to a reachable state leaves the table and the regions of
that state, and every state on the way is balanced.  So the region of a let is there when the let is
left, and nothing is left at the end, even if stamps are bound twice: then a walk still ends as it
should or replacements lead nowhere. -/
theorem walk_balanced :
    (∀ (e : Expr) (s : State) (limit depth : Nat) (past : List State), Reachable s →
      Fresh s.known e.binders → 1 ≤ limit → e.height ≤ depth →
      ∃ (t : State) (seen : List State),
        e.mapM (mapper limit) depth ⟨s, past⟩ = .ok (e.share s).1 ⟨t, past ++ seen⟩ ∧
        t.table = s.table ∧ t.regions = s.regions ∧ ∀ u ∈ s :: seen, u.Balanced) ∧
    ∀ (p : Program) (limit : Nat), ∃ t : Trail,
      (walk limit p .start = .ok p.share.program t ∨
        ∃ x, walk limit p .start = .error (.endless x) t) ∧
      ∀ u ∈ t.past, u.Balanced := by
  constructor
  · intro e s limit depth past hs hf hl hd
    obtain ⟨seen, hmap, hseen⟩ :=
      (e.mapM_mirrors invariant_expects limit hd s).reaches hl hs hf past
    obtain ⟨ht, hregions⟩ := e.share_table s
    refine ⟨(e.share s).2, seen, hmap, ht, hregions, ?_⟩
    exact List.forall_mem_cons.mpr ⟨hs.balanced, fun u hu => (hseen u hu).balanced⟩
  · intro p limit
    have hleads := walk_mirrors invariant_balanced limit p [.start] [] .start
    have hpast : ∀ {seen}, Throughout (fun _ s => s.Balanced) seen →
        ∀ u ∈ [State.start] ++ seen, u.Balanced := fun hseen =>
      List.forall_mem_cons.mpr ⟨.start, fun u hu => (hseen u hu).elim fun _ hu => hu⟩
    show ∃ t : Trail, (walk limit p ⟨.start, [.start]⟩ = _ ∨
      ∃ x, walk limit p ⟨.start, [.start]⟩ = _) ∧ _
    generalize walk limit p ⟨.start, [.start]⟩ = res at hleads
    cases hleads with
    | ok hseen _ => exact ⟨_, .inl rfl, hpast hseen⟩
    | endless hseen _ _ => exact ⟨_, .inr ⟨_, rfl⟩, hpast hseen⟩

/-- the state of the pass on `loose` after its first binding -/
def looseState : State :=
  (State.start.push .sequential).register ⟨⟨"a", 1⟩, .tuple [.id ⟨"z", 9⟩], none⟩

theorem walk_balanced_looseRest :
    (Reachable looseState ∧ looseState.table.length = 1 ∧
      Fresh looseState.known looseRest.binders) ∧
    ∃ (t : State) (seen : List State),
      looseRest.mapM (mapper 1) looseRest.height ⟨looseState, []⟩ =
        .ok (looseRest.share looseState).1 ⟨t, seen⟩ ∧
      t.table = looseState.table ∧ t.regions = looseState.regions ∧
      ∀ u ∈ looseState :: seen, u.Balanced := by
  have hreach : Reachable looseState := .register _ (by decide) (.push _ .start)
  have hnodup : (stamps looseRest.binders ++ looseState.known).Nodup := by decide
  obtain ⟨hbinders, -, hne⟩ := List.nodup_append.mp hnodup
  have hfresh : Fresh looseState.known looseRest.binders :=
    ⟨hbinders, fun n hn hk => hne n hn n hk rfl⟩
  exact ⟨⟨hreach, rfl, hfresh⟩, walk_balanced.1 looseRest looseState 1 looseRest.height [] hreach
    hfresh (Nat.le_refl 1) (Nat.le_refl _)⟩

end Sharing

end AnfWasm
