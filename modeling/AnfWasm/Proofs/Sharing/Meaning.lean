import AnfWasm.Proofs.Actions
import AnfWasm.Proofs.Scope.Checker
import AnfWasm.Proofs.Semantics.Eval
import AnfWasm.Proofs.Sharing.Substitution

/-!
# Sharing keeps the meaning of programs

A shared program builds fewer values than the one it was made from, and nothing else can be told
apart: `Eval.Sim R x' x` says that two evaluations end alike, with the same trace and the same
store, and with results that are related by `R`; the first one takes no more words.

`Linked` relates the environments of a rewritten expression and its original.  What stands for a
binder has the value of that binder, and a construction of the table has the value that its key has
now.  A binding that is replaced would build a value that is there already, so leaving it out
changes no more than the words taken.

* `Expr.eval_rewrite`    a rewritten expression evaluates like the original;
* `Program.eval_share`   a shared program evaluates like the original, and so does each function.
-/

namespace AnfWasm

/-! ### evaluations that end alike -/

/-- the same calls of the host and the same cells, and no more words -/
structure World.Alike (w' w : World) : Prop where
  trace : w'.trace = w.trace
  store : w'.store = w.store
  words : w'.words ≤ w.words

theorem World.Alike.refl (w : World) : w.Alike w := ⟨rfl, rfl, Nat.le_refl _⟩

namespace Eval

inductive Result.Alike {α β : Type} (R : α → β → Prop) : Result α → Result β → Prop where
  | ok {a : α} {b : β} {w' w : World} : R a b → w'.Alike w → Alike R (.ok a w') (.ok b w)
  | error {e : Stop} {w' w : World} : w'.Alike w → Alike R (.error e w') (.error e w)

theorem Result.Alike.observe_eq {r' r : Result Value} (h : Alike Eq r' r) :
    observe r' = observe r := by
  cases h with
  | ok hv hw => simp only [observe, hv, hw.trace, hw.store]
  | error hw => simp only [observe, hw.trace, hw.store]

theorem Result.Alike.imp {α β : Type} {R Q : α → β → Prop} {r' : Result α} {r : Result β}
    (h : Alike R r' r) (hR : ∀ a b w', r' = .ok a w' → R a b → Q a b) : Alike Q r' r := by
  cases h with
  | ok hab hw => exact .ok (hR _ _ _ rfl hab) hw
  | error hw => exact .error hw

/-- From worlds that are alike the evaluations end alike. -/
def Sim {α β : Type} (R : α → β → Prop) (x' : Eval α) (x : Eval β) : Prop :=
  ∀ w' w, w'.Alike w → Result.Alike R (x' w') (x w)

namespace Sim
variable {α β γ δ : Type} {R : α → β → Prop} {S : γ → δ → Prop}

theorem pure {a : α} {b : β} (h : R a b) : Sim R (pure a) (pure b) :=
  fun _ _ hw => .ok h hw

theorem throw (e : Stop) : Sim R (throw e) (throw e) := fun _ _ hw => .error hw

theorem bind {x' : Eval α} {x : Eval β} {f' : α → Eval γ} {f : β → Eval δ} (hx : Sim R x' x)
    (hf : ∀ a b, R a b → Sim S (f' a) (f b)) : Sim S (x' >>= f') (x >>= f) := by
  intro w' w hw
  have h := hx w' w hw
  generalize hr' : x' w' = r' at h
  generalize hr : x w = r at h
  cases h with
  | ok hab hw =>
    rw [bind_of_ok hr', bind_of_ok hr]
    exact hf _ _ hab _ _ hw
  | error hw =>
    rw [bind_of_error hr', bind_of_error hr]
    exact .error hw

theorem ofOption (o : Option α) : Sim Eq (ofOption o) (ofOption o) := by
  cases o with
  | none => exact throw .error
  | some a => exact pure rfl

theorem ofExcept (e : Except Stop α) : Sim Eq (ofExcept e) (ofExcept e) := by
  cases e with
  | error e => exact throw e
  | ok a => exact pure rfl

theorem take (n : Nat) : Sim Eq (take n) (take n) :=
  fun _ _ hw => .ok rfl ⟨hw.trace, hw.store, Nat.add_le_add_right hw.words n⟩

/-- a value that is there already need not be built -/
theorem absorb {n : Nat} {v : β} {x : Eval β} {y' : Eval γ} {f : β → Eval δ}
    (hx : Sim Eq (Eval.take n >>= fun _ => Pure.pure v) x) (hy : Sim S y' (f v)) :
    Sim S y' (x >>= f) := by
  intro w' w hw
  have h : Result.Alike Eq (.ok v { w' with words := w'.words + n }) (x w) := hx w' w hw
  generalize hr : x w = r at h
  cases h with
  | ok hv hw =>
    subst hv
    rw [bind_of_ok hr]
    exact hy _ _ ⟨hw.trace, hw.store, Nat.le_trans (Nat.le_add_right _ n) hw.words⟩

theorem imp {Q : α → β → Prop} {x' : Eval α} {x : Eval β} (h : Sim R x' x)
    (hR : ∀ a b, R a b → Q a b) : Sim Q x' x :=
  fun w' w hw => (h w' w hw).imp fun a b _ _ hab => hR a b hab

/-- what is known of the results of one side -/
theorem strengthen {x' : Eval α} {x : Eval β} {P : α → Prop} (h : Sim R x' x)
    (hP : ∀ w a w₂, x' w = .ok a w₂ → P a) : Sim (fun a b => R a b ∧ P a) x' x :=
  fun w' w hw => (h w' w hw).imp fun _ _ _ hr hab => ⟨hab, hP _ _ _ hr⟩

theorem newBox (v : Value) : Sim Eq (newBox v) (newBox v) := by
  intro w' w hw
  have hs := hw.store
  refine .ok ?_ ⟨hw.trace, ?_, hw.words⟩
  · rw [hs]
  · exact congrArg (· ++ [v]) hs

theorem readBox (l : Nat) : Sim Eq (readBox l) (readBox l) := by
  intro w' w hw
  show Result.Alike Eq (Eval.ofOption w'.store[l]? w') (Eval.ofOption w.store[l]? w)
  rw [hw.store]
  exact ofOption _ _ _ hw

theorem writeBox (l : Nat) (v : Value) : Sim Eq (writeBox l v) (writeBox l v) := by
  intro w' w hw
  show Result.Alike Eq ((if l < w'.store.length then _ else _ : Eval Value) w')
    ((if l < w.store.length then _ else _ : Eval Value) w)
  rw [hw.store]
  split
  · exact .ok rfl ⟨hw.trace, rfl, hw.words⟩
  · exact .error hw

theorem unary {f' f : Value → Eval Value} (vs : List Value) (h : ∀ v, Sim Eq (f' v) (f v)) :
    Sim Eq (unary f' vs) (unary f vs) := by
  rcases vs with _ | ⟨v, _ | ⟨w, vs⟩⟩
  · exact throw _
  · exact h v
  · exact throw _

theorem binary {f' f : Value → Value → Eval Value} (vs : List Value)
    (h : ∀ v w, Sim Eq (f' v w) (f v w)) : Sim Eq (binary f' vs) (binary f vs) := by
  rcases vs with _ | ⟨v, _ | ⟨w, _ | ⟨u, vs⟩⟩⟩
  · exact throw _
  · exact throw _
  · exact h v w
  · exact throw _

theorem ask (host : Host) (i : Import) (args : List Value) :
    Sim Eq (ask host i args) (ask host i args) := by
  intro w' w hw
  have ht := hw.trace
  refine .ok ?_ ⟨?_, hw.store, hw.words⟩
  · rw [ht]
  · show w'.trace ++ [_] = w.trace ++ [_]
    rw [ht]

end Sim

end Eval

open Eval

/-! ### computations -/

/-- calls do alike -/
structure Callables.Alike (X' X : Callables) : Prop where
  call : ∀ f args, Sim Eq (X'.call f args) (X.call f args)
  callForeign : ∀ f args, Sim Eq (X'.callForeign f args) (X.callForeign f args)

theorem Comp.perform_mapOperands (X : Callables) (f : Imm → Imm) (c : Comp) :
    (c.mapOperands f).perform X = c.perform X := by
  cases c <;> rfl

theorem Comp.sim_perform {X' X : Callables} (hX : X'.Alike X) (c : Comp) (vs : List Value) :
    Sim Eq (c.perform X' vs) (c.perform X vs) := by
  cases c with
  | imm a => exact .unary vs fun _ => .pure rfl
  | prim1 op a => exact .unary vs fun _ => .ofOption _
  | prim2 op a b => exact .binary vs fun _ _ => .ofExcept _
  | adt typeTag variant args => exact .bind (.take _) fun _ _ _ => .pure rfl
  | tuple args => exact .bind (.take _) fun _ _ _ => .pure rfl
  | tupleGet index a => exact .unary vs fun _ => .ofOption _
  | boxNew a => exact .unary vs fun v => .bind (.take _) fun _ _ _ => .newBox v
  | unbox a =>
    refine .unary vs fun b => .bind (.ofOption _) ?_
    rintro l _ rfl
    exact .readBox l
  | boxSet a b =>
    refine .binary vs fun b v => .bind (.ofOption _) ?_
    rintro l _ rfl
    exact .writeBox l v
  | call f args => exact hX.call f vs
  | callForeign f args => exact hX.callForeign f vs
  | branch a t e => exact .throw _
  | fail code => exact .throw _

/-! ### values of keys -/

theorem length_of_collect {os : List (Option Value)} {vs : List Value} (h : collect os = some vs) :
    vs.length = os.length := by
  induction os generalizing vs with
  | nil =>
    obtain rfl : [] = vs := Option.some.inj h
    rfl
  | cons o os ih =>
    cases o with
    | none => exact absurd h (by simp [collect])
    | some v =>
      obtain ⟨us, hus, rfl⟩ := Option.map_eq_some_iff.mp h
      rw [List.length_cons, ih hus, List.length_cons]

theorem collect_mono {α : Type} {f g : α → Option Value} (hle : ∀ a v, f a = some v → g a = some v)
    {as : List α} {vs : List Value} (h : collect (as.map f) = some vs) :
    collect (as.map g) = some vs := by
  induction as generalizing vs with
  | nil => exact h
  | cons a as ih =>
    rw [List.map_cons] at h ⊢
    cases ha : f a with
    | none => exact absurd h (by simp [ha, collect])
    | some v =>
      rw [ha] at h
      obtain ⟨us, hus, rfl⟩ := Option.map_eq_some_iff.mp h
      rw [hle a v ha]
      exact Option.map_eq_some_iff.mpr ⟨us, ih hus, rfl⟩

def Atom.value? (env : Env) : Atom → Option Value
  | .var n => env n
  | .const c => some c.value

/-- the value of the construction with that key -/
def Key.value? (env : Env) : Key → Option Value
  | .adt typeTag variant args => (collect (args.map (Atom.value? env))).map (.adt typeTag variant)
  | .tuple args => (collect (args.map (Atom.value? env))).map .tuple

/-- the words that a construction takes -/
def Key.words : Key → Nat
  | .adt _ _ args => 3 + args.length
  | .tuple args => 1 + args.length

theorem collect_atoms (env : Env) (args : List Imm) :
    collect ((args.map Imm.atom).map (Atom.value? env)) = values? env args := by
  have hatom : Atom.value? env ∘ Imm.atom = Imm.value? env := by
    funext a
    cases a <;> rfl
  rw [List.map_map, hatom]
  rfl

/-- A construction has the value of its key. -/
theorem Comp.eval_of_key {c : Comp} {k : Key} (h : c.key? = some k) (X : Callables) (env : Env) :
    c.eval X env = ofOption (k.value? env) >>= fun v => Eval.take k.words >>= fun _ => pure v := by
  have hbuild : ∀ (args : List Imm) (build : List Value → Value) (n : Nat),
      (values env args >>= fun vs => Eval.take (n + vs.length) >>= fun _ => pure (build vs)) =
        (ofOption ((collect ((args.map Imm.atom).map (Atom.value? env))).map build) >>= fun v =>
          Eval.take (n + (args.map Imm.atom).length) >>= fun _ => pure v) := by
    intro args build n
    unfold values
    rw [collect_atoms, List.length_map]
    cases hvs : values? env args with
    | none => rfl
    | some vs =>
      have hlen := length_of_collect hvs
      rw [List.length_map] at hlen
      rw [← hlen]
      rfl
  cases c with
  | adt typeTag variant args =>
    obtain rfl : Key.adt typeTag variant (args.map Imm.atom) = k := Option.some.inj h
    exact hbuild args (.adt typeTag variant) 3
  | tuple args =>
    obtain rfl : Key.tuple (args.map Imm.atom) = k := Option.some.inj h
    exact hbuild args .tuple 1
  | _ => exact absurd h (by simp [Comp.key?])

/-- a key that has a value keeps it when more is bound -/
theorem Key.value?_mono {env env₂ : Env} (hle : ∀ n v, env n = some v → env₂ n = some v) {k : Key}
    {v : Value} (h : k.value? env = some v) : k.value? env₂ = some v := by
  have hatom : ∀ (a : Atom) (v : Value), a.value? env = some v → a.value? env₂ = some v := by
    intro a v h
    cases a with
    | var n => exact hle n v h
    | const c => exact h
  cases k with
  | adt typeTag variant args | tuple args =>
    obtain ⟨vs, hvs, hv⟩ := Option.map_eq_some_iff.mp h
    exact Option.map_eq_some_iff.mpr ⟨vs, collect_mono hatom hvs, hv⟩

open Sharing

/-! ### environments -/

theorem Env.set_same (env : Env) (n : UInt32) (v : Value) : env.set n v n = some v := if_pos rfl

theorem Env.set_other (env : Env) {n m : UInt32} (h : m ≠ n) (v : Value) :
    env.set n v m = env m := if_neg h

theorem Env.le_set {env : Env} {n : UInt32} (h : env n = none) (v : Value) :
    ∀ m u, env m = some u → env.set n v m = some u := by
  intro m u hu
  rw [Env.set_other]
  · exact hu
  · rintro rfl
    exact absurd (h.symm.trans hu) (by simp)

/-- `env'` is the environment of a rewritten expression whose original has the environment `env` and
the scope `Γ`; the stamps that it binds are among `K`. -/
structure Linked (F : Merges) (K : List UInt32) (Γ : List Ident) (T : Available)
    (env' env : Env) : Prop where
  bound : ∀ n, n ∉ K → env' n = none ∧ env n = none
  kept : ∀ n ∈ stamps Γ, replacement? F n = none → env' n = env n
  replaced : ∀ n ∈ stamps Γ, ∀ a, replacement? F n = some a →
    ∃ v, env' a.stamp = some v ∧ env n = some v
  table : ∀ k a, (k, a) ∈ T → ∃ v, env' a.stamp = some v ∧ k.value? env' = some v

namespace Linked
variable {F : Merges} {K K₂ : List UInt32} {Γ Γ₂ : List Ident} {T : Available} {env' env : Env}

theorem mono (h : Linked F K Γ T env' env) (hK : ∀ n ∈ K, n ∈ K₂) : Linked F K₂ Γ T env' env :=
  { h with bound := fun n hn => h.bound n fun hk => hn (hK n hk) }

theorem value?_eq (h : Linked F K Γ T env' env) {a : Imm} (ha : ∀ x, a = .id x → InScope Γ x) :
    (standInImm F a).value? env' = a.value? env := by
  cases a with
  | const c => rfl
  | id x =>
    have hx := inScope_iff.mp (ha x rfl)
    show env' ((replacement? F x.stamp).getD x).stamp = env x.stamp
    cases hr : replacement? F x.stamp with
    | none => exact h.kept _ hx hr
    | some b =>
      obtain ⟨v, hb, he⟩ := h.replaced _ hx b hr
      exact hb.trans he.symm

theorem values?_eq (h : Linked F K Γ T env' env) {args : List Imm}
    (ha : ∀ x, Imm.id x ∈ args → InScope Γ x) :
    values? env' (args.map (standInImm F)) = values? env args := by
  unfold values?
  rw [List.map_map]
  refine congrArg collect (List.map_congr_left fun a hmem => h.value?_eq ?_)
  rintro x rfl
  exact ha x hmem

/-- a binding that stays -/
theorem keep (h : Linked F K Γ T env' env) {x : Ident} (hK : x.stamp ∉ K)
    (hx : replacement? F x.stamp = none) (v : Value) :
    Linked F (x.stamp :: K) (x :: Γ) T (env'.set x.stamp v) (env.set x.stamp v) := by
  have hset := Env.le_set (h.bound _ hK).1 v
  refine ⟨fun n hn => ?_, fun n hn hr => ?_, fun n hn a hr => ?_, fun k a ha => ?_⟩
  · rw [List.mem_cons, not_or] at hn
    rw [Env.set_other _ hn.1, Env.set_other _ hn.1]
    exact h.bound n hn.2
  · by_cases hnx : n = x.stamp
    · rw [hnx, Env.set_same, Env.set_same]
    · rw [Env.set_other _ hnx, Env.set_other _ hnx]
      exact h.kept n (List.mem_of_ne_of_mem hnx hn) hr
  · have hnx : n ≠ x.stamp := by
      rintro rfl
      exact absurd (hx.symm.trans hr) (by simp)
    obtain ⟨u, hu, he⟩ := h.replaced n (List.mem_of_ne_of_mem hnx hn) a hr
    exact ⟨u, hset _ _ hu, (Env.set_other _ hnx v).trans he⟩
  · obtain ⟨u, hu, hk⟩ := h.table k a ha
    exact ⟨u, hset _ _ hu, Key.value?_mono hset hk⟩

/-- a binding that goes: what stands for it has its value -/
theorem drop (h : Linked F K Γ T env' env) {x a : Ident} (hx : replacement? F x.stamp = some a)
    {v : Value} (hv : env' a.stamp = some v) :
    Linked F (x.stamp :: K) (x :: Γ) T env' (env.set x.stamp v) := by
  refine ⟨fun n hn => ?_, fun n hn hr => ?_, fun n hn b hr => ?_, h.table⟩
  · rw [List.mem_cons, not_or] at hn
    rw [Env.set_other _ hn.1]
    exact h.bound n hn.2
  · have hnx : n ≠ x.stamp := by
      rintro rfl
      exact absurd (hr.symm.trans hx) (by simp)
    rw [Env.set_other _ hnx]
    exact h.kept n (List.mem_of_ne_of_mem hnx hn) hr
  · by_cases hnx : n = x.stamp
    · subst hnx
      obtain rfl : a = b := Option.some.inj (hx.symm.trans hr)
      exact ⟨v, hv, Env.set_same _ _ _⟩
    · rw [Env.set_other _ hnx]
      exact h.replaced n (List.mem_of_ne_of_mem hnx hn) b hr

/-- a construction enters the table after it is bound -/
theorem extend (h : Linked F K Γ T env' env) (kind : LetKind) {x : Ident} {c : Comp} {v : Value}
    (hx : env' x.stamp = some v) (hc : ∀ k, c.key? = some k → k.value? env' = some v) :
    Linked F K Γ (Sharing.extend kind T x c) env' env := by
  rcases extend_cases kind T x c with he | ⟨k', hk', -, -, -, he⟩
  · rw [he]
    exact h
  · rw [he]
    refine { h with table := fun k a ha => ?_ }
    rcases List.mem_cons.mp ha with ha | ha
    · obtain ⟨rfl, rfl⟩ := Prod.mk.inj ha
      exact ⟨v, hx, hc k hk'⟩
    · exact h.table k a ha

theorem sub (h : Linked F K Γ T env' env) (hΓ : Γ₂ ⊆ Γ) : Linked F K Γ₂ T env' env :=
  { h with
    kept := fun n hn => h.kept n (List.map_subset _ hΓ hn)
    replaced := fun n hn => h.replaced n (List.map_subset _ hΓ hn) }

theorem entry {bs : List Binding} {kind : LetKind} (h : Linked F K Γ T env' env)
    (hj : Binding.Justified F kind T bs) (hf : Fresh K (Binding.binders bs)) :
    Linked F K (kind.entry Γ bs) T env' env := by
  cases kind with
  | sequential => exact h
  | recursive =>
    -- the binders of the group are in scope and have no value yet
    have hids : ∀ n ∈ stamps (ids bs), replacement? F n = none ∧ env' n = none ∧ env n = none := by
      intro n hn
      obtain ⟨x, hx, rfl⟩ := mem_stamps.mp hn
      exact ⟨group_kept hj x hx, h.bound _ (hf.2 _ (List.map_subset _ (ids_subset_binders bs) hn))⟩
    refine { h with kept := fun n hn hr => ?_, replaced := fun n hn a hr => ?_ }
    · rcases mem_stamps_reverse_append.mp hn with hn | hn
      · obtain ⟨-, h1, h2⟩ := hids n hn
        rw [h1, h2]
      · exact h.kept n hn hr
    · rcases mem_stamps_reverse_append.mp hn with hn | hn
      · exact absurd ((hids n hn).1.symm.trans hr) (by simp)
      · exact h.replaced n hn a hr

theorem reach {kind : LetKind} {x : Ident} (h : Linked F K (x :: Γ) T env' env) :
    Linked F K (kind.reach Γ x) T env' env := by
  cases kind with
  | sequential => exact h
  | recursive => exact h.sub (List.subset_cons_self _ _)

/-- after a binding that stays -/
theorem bind_of_none {kind : LetKind} {x : Ident} {c : Comp} {v : Value}
    (h : Linked F K Γ T env' env) (hK : x.stamp ∉ K) (hx : replacement? F x.stamp = none)
    (hc : ∀ k, c.key? = some k → k.value? env' = some v) :
    Linked F (x.stamp :: K) (kind.reach Γ x) (Sharing.extend kind T x c)
      (env'.set x.stamp v) (env.set x.stamp v) :=
  ((h.keep hK hx v).extend kind (Env.set_same _ _ _) fun k hk =>
    Key.value?_mono (Env.le_set (h.bound _ hK).1 v) (hc k hk)).reach

/-- after a binding that goes -/
theorem bind_of_some {kind : LetKind} {x a : Ident} {c : Comp} {v : Value}
    (h : Linked F K Γ T env' env) (hx : replacement? F x.stamp = some a)
    (hj : replacement? F x.stamp = available? kind T c) (hv : env' a.stamp = some v) :
    Linked F (x.stamp :: K) (kind.reach Γ x) (Sharing.extend kind T x c)
      env' (env.set x.stamp v) := by
  rw [extend_of_available (hj.symm.trans hx)]
  exact (h.drop hx hv).reach

end Linked

/-! ### expressions -/

theorem Comp.value_of_key {c : Comp} {k : Key} (hk : c.key? = some k) {X : Callables} {env : Env}
    {w w₂ : World} {v : Value} (h : c.eval X env w = .ok v w₂) : k.value? env = some v := by
  rw [Comp.eval_of_key hk] at h
  cases hv : k.value? env with
  | none =>
    rw [hv] at h
    have h' : (EStateM.Result.error .error w : Result Value) = .ok v w₂ := h
    exact absurd h' (by simp)
  | some u =>
    rw [hv] at h
    obtain ⟨rfl, -⟩ := EStateM.Result.ok.inj h
    rfl

theorem eval_letOf (kind : LetKind) (bs : List Binding) (body : Expr) (X : Callables) (env : Env) :
    (letOf kind bs body).eval X env = Binding.evals X env bs >>= fun env => body.eval X env := by
  cases bs <;> rfl

theorem Comp.eval_rewrite_plain {c : Comp} (hc : c.arms = []) {F : Merges}
    {K : List UInt32} {Γ : List Ident} {T : Available} {env' env : Env} {X' X : Callables}
    (hX : X'.Alike X) (hl : Linked F K Γ T env' env) (hsc : ScopedAt (c.At Γ)) :
    Sim Eq ((c.rewrite F).eval X' env') (c.eval X env) := by
  have hc' : (c.mapOperands (standInImm F)).arms = [] := (c.arms_mapOperands _).trans hc
  have hvals := hl.values?_eq fun x hx => hsc Γ x (.operand hx)
  rw [rewrite_plain hc, Comp.eval_plain hc', Comp.eval_plain hc, Comp.operands_mapOperands,
    Comp.perform_mapOperands]
  unfold values
  rw [hvals]
  refine .bind (.ofOption _) ?_
  rintro vs _ rfl
  exact c.sim_perform hX vs

mutual

theorem Comp.eval_rewrite (c : Comp) {F : Merges} {K : List UInt32} {Γ : List Ident}
    {T : Available} {env' env : Env} {X' X : Callables} (hX : X'.Alike X)
    (hl : Linked F K Γ T env' env) (hj : c.Justified F T) (hf : Fresh K c.binders)
    (hsc : ScopedAt (c.At Γ)) : Sim Eq ((c.rewrite F).eval X' env') (c.eval X env) := by
  match c with
  | .branch cond thenArm elseArm =>
    obtain ⟨hf1, hf2⟩ := hf.append
    have hsc' := hsc.right fun _ _ => Comp.at_branch
    have h1 := thenArm.eval_rewrite hX hl hj.1 hf1 (hsc'.left fun _ _ => Iff.rfl)
    have h2 := elseArm.eval_rewrite hX hl hj.2 (hf2.mono fun _ => List.mem_append_right _)
      (hsc'.right fun _ _ => Iff.rfl)
    have hcond : (standInImm F cond).value? env' = cond.value? env := by
      refine hl.value?_eq ?_
      rintro x rfl
      exact hsc Γ x (.operand (List.mem_singleton_self _))
    unfold Comp.rewrite Comp.eval
    rw [hcond]
    refine .bind (.ofOption _) ?_
    rintro v _ rfl
    split
    · exact h1
    · exact h2
    · exact .throw _
  | .imm _ | .prim1 _ _ | .prim2 _ _ _ | .adt _ _ _ | .tuple _ | .tupleGet _ _ | .boxNew _
  | .unbox _ | .boxSet _ _ | .call _ _ | .callForeign _ _ | .fail _ =>
    exact Comp.eval_rewrite_plain rfl hX hl hsc

theorem Binding.evals_rewrite (bs : List Binding) {F : Merges} {K : List UInt32} {Γ : List Ident}
    {T : Available} {kind : LetKind} {env' env : Env} {X' X : Callables} (hX : X'.Alike X)
    (hl : Linked F K Γ T env' env) (hj : Binding.Justified F kind T bs)
    (hf : Fresh K (Binding.binders bs)) (hsc : ScopedAt (Binding.At kind Γ bs)) :
    Sim (Linked F (stamps (Binding.binders bs) ++ K) (kind.exit Γ bs) (extendAll F kind T bs))
      (Binding.evals X' env' (Binding.keptOf F bs)) (Binding.evals X env bs) := by
  match bs with
  | [] => exact .pure hl
  | ⟨id, comp, span⟩ :: bs =>
    obtain ⟨hj1, hj2, hj3⟩ := hj
    obtain ⟨hf1, hf2⟩ := hf.append
    obtain ⟨hid, hf3⟩ := hf2.cons
    have hcomp := comp.eval_rewrite hX hl hj1 hf1 (hsc.left fun _ _ => Iff.rfl)
    have hl1 := hl.mono fun n => List.mem_append_right (stamps comp.binders)
    have hsc2 : ScopedAt (Binding.At kind (kind.reach Γ id) bs) := hsc.right fun _ _ => Iff.rfl
    have hend : ∀ env₁' env₁, Linked F (stamps (Binding.binders bs) ++ (id.stamp ::
          (stamps comp.binders ++ K))) (kind.exit Γ (⟨id, comp, span⟩ :: bs))
          (extendAll F kind T (⟨id, comp, span⟩ :: bs)) env₁' env₁ →
        Linked F (stamps (Binding.binders (⟨id, comp, span⟩ :: bs)) ++ K)
          (kind.exit Γ (⟨id, comp, span⟩ :: bs)) (extendAll F kind T (⟨id, comp, span⟩ :: bs))
          env₁' env₁ := by
      refine fun _ _ h => h.mono fun n hn => ?_
      rw [Binding.binders, stamps_append, stamps_cons]
      simp only [List.mem_append, List.mem_cons] at hn ⊢
      grind
    cases hr : replacement? F id.stamp with
    | none =>
      rw [Binding.keptOf_cons_of_none hr]
      have hval := hcomp.strengthen fun w a w₂ h k (hk : (comp.rewrite F).key? = some k) =>
        Comp.value_of_key hk h
      refine Sim.bind hval ?_
      rintro v _ ⟨rfl, hkey⟩
      exact (Binding.evals_rewrite bs hX (hl1.bind_of_none hid hr hkey) hj3 hf3 hsc2).imp hend
    | some a =>
      rw [Binding.keptOf_cons_of_some hr]
      obtain ⟨k, hk, hmem⟩ := mem_of_available? (hj2.symm.trans hr)
      obtain ⟨v, ha, hkv⟩ := hl.table k a hmem
      rw [Comp.eval_of_key hk, hkv] at hcomp
      refine Sim.absorb hcomp ?_
      exact (Binding.evals_rewrite bs hX (hl1.bind_of_some hr hj2 ha) hj3 hf3 hsc2).imp hend

theorem Expr.eval_rewrite (e : Expr) {F : Merges} {K : List UInt32} {Γ : List Ident}
    {T : Available} {env' env : Env} {X' X : Callables} (hX : X'.Alike X)
    (hl : Linked F K Γ T env' env) (hj : e.Justified F T) (hf : Fresh K e.binders)
    (hsc : ScopedAt (e.At Γ)) : Sim Eq ((e.rewrite F).eval X' env') (e.eval X env) := by
  match e with
  | .letIn kind bs body =>
    obtain ⟨hf1, hf2⟩ := hf.append
    have hbs := Binding.evals_rewrite bs hX (hl.entry hj.1 hf1) hj.1 hf1
      (hsc.left fun _ _ => Expr.at_let)
    rw [LetKind.exit_entry] at hbs
    show Sim Eq ((letOf kind (Binding.keptOf F bs) (body.rewrite F)).eval X' env')
      (Binding.evals X env bs >>= fun env => body.eval X env)
    rw [eval_letOf]
    exact .bind hbs fun _ _ hl' => body.eval_rewrite hX hl' hj.2 hf2
      (hsc.right fun _ _ => Expr.at_let)
  | .seq comp rest =>
    obtain ⟨hf1, hf2⟩ := hf.append
    have h1 := comp.eval_rewrite hX hl hj.1 hf1 (hsc.left fun _ _ => Expr.at_seq)
    have h2 := rest.eval_rewrite hX hl hj.2 (hf2.mono fun _ => List.mem_append_right _)
      (hsc.right fun _ _ => Expr.at_seq)
    exact .bind h1 fun _ _ _ => h2
  | .comp comp => exact comp.eval_rewrite hX hl hj hf fun Δ x hx => hsc Δ x (.comp hx)

end

/-! ### functions and programs -/

theorem Env.setAll_other {xs : List Ident} {n : UInt32} (h : n ∉ stamps xs) (env : Env)
    (vs : List Value) : env.setAll xs vs n = env n := by
  induction xs generalizing env vs with
  | nil => rfl
  | cons x xs ih =>
    cases vs with
    | nil => rfl
    | cons v vs =>
      rw [stamps_cons, List.mem_cons, not_or] at h
      rw [Env.setAll, ih h.2, Env.set_other _ h.1]

/-- the environment of a call is the same on both sides -/
theorem linked_setAll {F : Merges} {xs : List Ident} (h : ∀ n ∈ stamps xs, replacement? F n = none)
    (vs : List Value) :
    Linked F (stamps xs) xs.reverse [] (Env.empty.setAll xs vs) (Env.empty.setAll xs vs) where
  bound n hn := by
    rw [Env.setAll_other hn]
    exact ⟨rfl, rfl⟩
  kept _ _ _ := rfl
  replaced n hn a ha := by
    have hn' : n ∈ stamps xs := by simpa [stamps] using hn
    exact absurd ((h n hn').symm.trans ha) (by simp)
  table k a ha := absurd ha List.not_mem_nil

namespace Program
variable {p : Program} {F : Merges}

theorem func?_rewrite (p : Program) (F : Merges) (f : Ident) :
    (p.rewrite F).func? f = (p.func? f).map (Func.rewrite F) := by
  unfold func?
  show (p.functions.map (Func.rewrite F)).find? _ = _
  rw [List.find?_map]
  rfl

theorem sim_callForeign (p : Program) (F : Merges) (host : Host) (f : Ident) (args : List Value) :
    Sim Eq ((p.rewrite F).callForeign host f args) (p.callForeign host f args) := by
  show Sim Eq (p.callForeign host f args) (p.callForeign host f args)
  unfold callForeign
  split
  · split
    · exact .ask host _ args
    · exact .throw _
  · exact .throw _

theorem sim_call (h : p.WellFormed) (hj : p.Justified F) (host : Host) (budget : Nat) (f : Ident)
    (args : List Value) :
    Sim Eq ((p.rewrite F).call host budget f args) (p.call host budget f args) := by
  induction budget generalizing f args with
  | zero => exact .throw _
  | succ n ih =>
    unfold call
    rw [func?_rewrite]
    cases hg : p.func? f with
    | none => exact .throw _
    | some g =>
      have hmem : g ∈ p.functions := List.mem_of_find?_eq_some hg
      obtain ⟨hparams, hbody⟩ := hj.1 g hmem
      have hX : Callables.Alike ((p.rewrite F).callables host n) (p.callables host n) :=
        ⟨ih, p.sim_callForeign F host⟩
      have hf : Fresh (stamps g.params) g.body.binders :=
        (h.fresh_func hmem).append.2.mono fun n hn => List.mem_append_left _ hn
      show Sim Eq (if g.params.length = args.length then _ else _)
        (if g.params.length = args.length then _ else _)
      by_cases hlen : g.params.length = args.length
      · rw [if_pos hlen, if_pos hlen]
        exact Expr.eval_rewrite g.body hX (linked_setAll hparams args) hbody hf
          fun Δ x hx => h.operand (.inl ⟨g, hmem, hx⟩)
      · rw [if_neg hlen, if_neg hlen]
        exact .throw _

theorem sim_run (h : p.WellFormed) (hj : p.Justified F) (host : Host) (budget : Nat) :
    Sim Eq ((p.rewrite F).run host budget) (p.run host budget) := by
  have hempty : Linked F (stamps []) [].reverse [] (Env.empty.setAll [] [])
      (Env.empty.setAll [] []) :=
    linked_setAll (fun n hn => absurd hn List.not_mem_nil) []
  exact Expr.eval_rewrite p.body ⟨sim_call h hj host budget, p.sim_callForeign F host⟩ hempty hj.2
    h.fresh_body fun Δ x hx => h.operand (.inr hx)

/-- **Sharing keeps the meaning of a program**: the entry expression, and each function with any
arguments, ends in the same way, with the same trace and the same store. -/
theorem eval_share {p : Program} (h : p.check = .ok ()) (host : Host) (budget : Nat) (w : World) :
    observe (p.share.program.run host budget w) = observe (p.run host budget w) ∧
      ∀ f args, observe (p.share.program.call host budget f args w)
        = observe (p.call host budget f args w) := by
  have hw := p.check_ok_iff.mp h
  obtain ⟨he, hj⟩ := Program.share_eq hw
  rw [he]
  refine ⟨(sim_run hw hj host budget w w (.refl w)).observe_eq, fun f args => ?_⟩
  exact (sim_call hw hj host budget f args w w (.refl w)).observe_eq

theorem eval_share_twins : twins.check = .ok () ∧
    observe (twins.share.program.run (fun _ _ _ _ => .unit) 1 .start)
      = ⟨.ok (.tuple [.int 7, .int 5]), [], []⟩ :=
  ⟨rfl, (eval_share rfl _ 1 .start).1.trans rfl⟩

end Program

end AnfWasm
