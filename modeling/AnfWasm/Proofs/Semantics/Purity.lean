import AnfWasm.Proofs.Sharing.Meaning

/-!
# What purity and keys promise

`Comp.Suits c vs` says that the values `vs` are of types that the operation of `c` is defined on.  A
pure computation with such operands gives a value (`Comp.perform_pure`): it does not trap, it calls
nothing, and of the world it changes no more than the words taken and, if it makes a cell, the end
of the store.

A computation with a key leaves the store alone in every case, and what comes of it is told by its
key and the values of the stamps in it (`Comp.observe_of_key`).
-/

namespace AnfWasm
open Eval

/-! ### operands of the right type -/

/-- defined on numbers only -/
def Prim2.isArithmetic : Prim2 → Bool
  | .add | .sub | .mul | .div => true
  | _ => false

/-- The operation of the computation is defined on values of these types. -/
inductive Comp.Suits : Comp → List Value → Prop
  | imm {a : Imm} {v : Value} : Suits (.imm a) [v]
  | not {a : Imm} {b : Bool} : Suits (.prim1 .not a) [.bool b]
  | neg {a : Imm} {n : Int32} : Suits (.prim1 .neg a) [.int n]
  | ints {op : Prim2} {a b : Imm} {m n : Int32} : Suits (.prim2 op a b) [.int m, .int n]
  | bools {op : Prim2} {a b : Imm} {x y : Bool} : op.isArithmetic = false →
      Suits (.prim2 op a b) [.bool x, .bool y]
  | adt {typeTag variant : UInt32} {args : List Imm} {vs : List Value} :
      Suits (.adt typeTag variant args) vs
  | tuple {args : List Imm} {vs : List Value} : Suits (.tuple args) vs
  | tupleGet {index : UInt32} {a : Imm} {vs : List Value} : index.toNat < vs.length →
      Suits (.tupleGet index a) [.tuple vs]
  | boxNew {a : Imm} {v : Value} : Suits (.boxNew a) [v]
  | unbox {a : Imm} {l : Nat} : Suits (.unbox a) [.box l]
  | boxSet {a b : Imm} {l : Nat} {v : Value} : Suits (.boxSet a b) [.box l, v]
  | call {f : Ident} {args : List Imm} {vs : List Value} : Suits (.call f args) vs
  | callForeign {f : Ident} {args : List Imm} {vs : List Value} : Suits (.callForeign f args) vs
  | branch {a : Imm} {t e : Expr} {b : Bool} : Suits (.branch a t e) [.bool b]
  | fail {code : UInt32} : Suits (.fail code) []

/-! ### pure computations -/

theorem Prim2.onInts_ok {op : Prim2} (h : op ≠ .div) (m n : Int32) :
    ∃ v, op.onInts m n = .ok v := by
  cases op with
  | div => exact absurd rfl h
  | _ => exact ⟨_, rfl⟩

theorem Prim2.onBools_ok {op : Prim2} (h : op.isArithmetic = false) (x y : Bool) :
    ∃ v, op.onBools x y = .ok v := by
  cases op with
  | add | sub | mul | div => exact Bool.noConfusion h
  | _ => exact ⟨_, rfl⟩

/-- only a division is not pure -/
theorem Prim2.ne_div_of_pure {op : Prim2} {a b : Imm} (h : (Comp.prim2 op a b).purity = .pure) :
    op ≠ .div := by
  rintro rfl
  exact Purity.noConfusion h

/-- the cells that a computation makes -/
def Comp.cells : Comp → List Value → List Value
  | .boxNew _, vs => vs
  | _, _ => []

/-- The computation gives `v` and leads from `w` to `w'` whatever calls do, and nothing changes but
the end of the store and the words taken. -/
structure Comp.Quiet (c : Comp) (vs : List Value) (w : World) (v : Value) (w' : World) : Prop where
  perform : ∀ X : Callables, c.perform X vs w = .ok v w'
  trace : w'.trace = w.trace
  store : w'.store = w.store ++ c.cells vs
  location : ∀ a, c = .boxNew a → v = .box w.store.length

theorem Comp.cells_eq_nil {c : Comp} (h : ∀ a, c ≠ .boxNew a) (vs : List Value) :
    c.cells vs = [] := by
  cases c with
  | boxNew a => exact absurd rfl (h a)
  | _ => rfl

/-- no more than words are taken -/
theorem Comp.quiet_of_words {c : Comp} {vs : List Value} {v : Value} {w : World} {n : Nat}
    (hc : ∀ a, c ≠ .boxNew a)
    (h : ∀ X : Callables, c.perform X vs w = .ok v { w with words := w.words + n }) :
    c.Quiet vs w v { w with words := w.words + n } where
  perform := h
  trace := rfl
  store := by rw [Comp.cells_eq_nil hc, List.append_nil]
  location a ha := absurd ha (hc a)

theorem Comp.perform_pure {c : Comp} {vs : List Value} (hc : c.purity = .pure) (hs : c.Suits vs)
    (w : World) : ∃ v w', c.Quiet vs w v w' := by
  cases hs with
  | imm | not | neg =>
    exact ⟨_, w, quiet_of_words (n := 0) (fun _ => Comp.noConfusion) fun _ => rfl⟩
  | @ints op a b m n =>
    obtain ⟨v, hv⟩ := Prim2.onInts_ok (Prim2.ne_div_of_pure hc) m n
    refine ⟨v, w, quiet_of_words (n := 0) (fun _ => Comp.noConfusion) fun X => ?_⟩
    show Eval.ofExcept (op.onInts m n) w = _
    rw [hv]
    rfl
  | @bools op a b x y ho =>
    obtain ⟨v, hv⟩ := Prim2.onBools_ok ho x y
    refine ⟨v, w, quiet_of_words (n := 0) (fun _ => Comp.noConfusion) fun X => ?_⟩
    show Eval.ofExcept (op.onBools x y) w = _
    rw [hv]
    rfl
  | adt | tuple => exact ⟨_, _, quiet_of_words (fun _ => Comp.noConfusion) fun _ => rfl⟩
  | @tupleGet index a us hi =>
    refine ⟨us[index.toNat], w, quiet_of_words (n := 0) (fun _ => Comp.noConfusion) fun X => ?_⟩
    show Eval.ofOption us[index.toNat]? w = _
    rw [List.getElem?_eq_getElem hi]
    rfl
  | boxNew => exact ⟨_, _, fun _ => rfl, rfl, rfl, fun _ _ => rfl⟩
  | unbox | boxSet | call | callForeign | branch | fail => exact Purity.noConfusion hc

theorem Eval.unary_error {f : Value → Eval Value} {vs : List Value} {w : World}
    (h : ∀ v, vs = [v] → f v w = .error .error w) : Eval.unary f vs w = .error .error w := by
  rcases vs with _ | ⟨v, _ | ⟨u, vs⟩⟩
  · rfl
  · exact h v rfl
  · rfl

theorem Eval.binary_error {f : Value → Value → Eval Value} {vs : List Value} {w : World}
    (h : ∀ v u, vs = [v, u] → f v u w = .error .error w) :
    Eval.binary f vs w = .error .error w := by
  rcases vs with _ | ⟨v, _ | ⟨u, _ | ⟨t, vs⟩⟩⟩
  · rfl
  · rfl
  · exact h v u rfl
  · rfl

theorem Prim2.apply_unsuited {op : Prim2} {a b : Imm} {v u : Value}
    (h : ¬ (Comp.prim2 op a b).Suits [v, u]) : op.apply v u = .error .error := by
  cases v with
  | int m =>
    cases u with
    | int n => exact absurd .ints h
    | _ => rfl
  | bool x =>
    cases u with
    | bool y =>
      cases op with
      | add | sub | mul | div => rfl
      | _ => exact absurd (.bools rfl) h
    | _ => rfl
  | _ => cases u <;> rfl

/-- A pure computation with other operands ends with an error: it does not trap then either. -/
theorem Comp.perform_unsuited {c : Comp} {vs : List Value} (hc : c.purity = .pure)
    (hs : ¬ c.Suits vs) (X : Callables) (w : World) : c.perform X vs w = .error .error w := by
  cases c with
  | imm a | boxNew a =>
    refine Eval.unary_error ?_
    rintro v rfl
    exact absurd (by constructor) hs
  | prim1 op a =>
    refine Eval.unary_error ?_
    rintro v rfl
    cases op with
    | not =>
      cases v with
      | bool b => exact absurd .not hs
      | _ => rfl
    | neg =>
      cases v with
      | int n => exact absurd .neg hs
      | _ => rfl
  | prim2 op a b =>
    refine Eval.binary_error ?_
    rintro v u rfl
    rw [Prim2.apply_unsuited hs]
    rfl
  | adt | tuple => exact absurd (by constructor) hs
  | tupleGet index a =>
    refine Eval.unary_error ?_
    rintro v rfl
    cases v with
    | tuple us =>
      have hi : us[index.toNat]? = none :=
        List.getElem?_eq_none (Nat.le_of_not_lt fun hlt => hs (.tupleGet hlt))
      show Eval.ofOption us[index.toNat]? w = _
      rw [hi]
      rfl
    | _ => rfl
  | unbox | boxSet | call | callForeign | branch | fail => exact Purity.noConfusion hc

theorem values?_singleton (env : Env) (a : Imm) :
    values? env [a] = (a.value? env).map fun v => [v] := by
  show collect [a.value? env] = _
  cases a.value? env <;> rfl

theorem Comp.eval_of_values {c : Comp} (hc : c.arms = []) {env : Env}
    {vs : List Value} (hv : values? env c.operands = some vs) (X : Callables) (w : World) :
    c.eval X env w = c.perform X vs w := by
  have hvs : Eval.values env c.operands w = .ok vs w := by
    unfold Eval.values
    rw [hv]
    rfl
  rw [Comp.eval_plain hc, bind_of_ok hvs]

/-! ### computations with a key -/

theorem Key.value?_congr {k : Key} {env env₂ : Env} (h : ∀ n ∈ k.stamps, env n = env₂ n) :
    k.value? env = k.value? env₂ := by
  cases k with
  | adt typeTag variant args | tuple args =>
    have hargs : args.map (Atom.value? env) = args.map (Atom.value? env₂) := by
      refine List.map_congr_left fun a ha => ?_
      cases a with
      | var n => exact h n (List.mem_filterMap.mpr ⟨_, ha, rfl⟩)
      | const c => rfl
    simp only [Key.value?, hargs]

/-- the outcome of a computation with that key -/
def Key.outcome (env : Env) (k : Key) : Except Stop Value :=
  match k.value? env with
  | some v => .ok v
  | none => .error .error

theorem Comp.observe_of_key {c : Comp} {k : Key} (h : c.key? = some k) (X : Callables) (env : Env)
    (w : World) : observe (c.eval X env w) = ⟨k.outcome env, w.trace, w.store⟩ := by
  rw [Comp.eval_of_key h, Key.outcome]
  cases k.value? env <;> rfl

/-- A pure computation whose operands are there and of the right types gives a value, the same
whatever calls would do, so it calls nothing; no cell that is there changes, and only a new cell is
added to them.  With operands of other types it ends with an error.  If it has a key, it leaves the
store as it is in any case, and what comes of it is what comes of every computation with that key,
in every world, once the stamps of the key have the same values. -/
theorem Comp.eval_pure {c : Comp} (hc : c.purity = .pure) :
    (∀ (env : Env) (vs : List Value) (w : World), values? env c.operands = some vs →
      (c.Suits vs → ∃ v w', (∀ X : Callables, c.eval X env w = .ok v w') ∧ w'.trace = w.trace ∧
        (∀ (l : Nat) (u : Value), w.store[l]? = some u → w'.store[l]? = some u) ∧
        ((∀ a, c ≠ .boxNew a) → w'.store = w.store) ∧
        ∀ a, c = .boxNew a → ∃ u, a.value? env = some u ∧
          v = .box w.store.length ∧ w'.store = w.store ++ [u]) ∧
      (¬ c.Suits vs → ∀ X : Callables, c.eval X env w = .error .error w)) ∧
    ∀ k, c.key? = some k → ∀ (X : Callables) (env : Env) (w : World),
      (observe (c.eval X env w)).store = w.store ∧
      ∀ (d : Comp) (Y : Callables) (env₂ : Env) (w₂ : World), d.key? = some k →
        (∀ n ∈ k.stamps, env n = env₂ n) →
        (observe (c.eval X env w)).outcome = (observe (d.eval Y env₂ w₂)).outcome := by
  have harms : c.arms = [] := by
    cases c with
    | branch => exact Purity.noConfusion hc
    | _ => rfl
  refine ⟨fun env vs w hv => ⟨fun hs => ?_, fun hs X => ?_⟩,
    fun k hk X env w => ⟨?_, fun d Y env₂ w₂ hd henv => ?_⟩⟩
  · obtain ⟨v, w', hq⟩ := Comp.perform_pure hc hs w
    refine ⟨v, w', fun X => (Comp.eval_of_values harms hv X w).trans (hq.perform X), hq.trace,
      fun l u hl => ?_, fun hb => ?_, ?_⟩
    · rw [hq.store, List.getElem?_append_left (List.getElem?_eq_some_iff.mp hl).1, hl]
    · rw [hq.store, Comp.cells_eq_nil hb, List.append_nil]
    · rintro a rfl
      obtain ⟨u, hu, rfl⟩ := Option.map_eq_some_iff.mp (values?_singleton env a ▸ hv)
      exact ⟨u, hu, hq.location a rfl, hq.store⟩
  · rw [Comp.eval_of_values harms hv, Comp.perform_unsuited hc hs]
  · rw [Comp.observe_of_key hk]
  · rw [Comp.observe_of_key hk, Comp.observe_of_key hd]
    show k.outcome env = k.outcome env₂
    unfold Key.outcome
    rw [Key.value?_congr henv]

/-- `(x, 5)`, where the first component has the stamp 1 -/
def pairWith (name : String) : Comp := .tuple [.id ⟨name, 1⟩, .int 5]

/-- no call is answered -/
def Callables.refusing : Callables := ⟨fun _ _ => throw .error, fun _ _ => throw .error⟩

/-- Two pairs that differ in a display name, in worlds with different cells. -/
theorem eval_pure_pairWith :
    (pairWith "x").purity = .pure ∧
    values? (Env.empty.set 1 .unit) (pairWith "x").operands = some [.unit, .int 5] ∧
    (pairWith "x").Suits [.unit, .int 5] ∧
    (∃ v w', (∀ X : Callables,
        (pairWith "x").eval X (Env.empty.set 1 .unit) .start = .ok v w') ∧ w'.store = []) ∧
    (pairWith "y").key? = (pairWith "x").key? ∧
    (observe ((pairWith "x").eval .refusing (Env.empty.set 1 .unit) .start)).outcome =
      (observe
        ((pairWith "y").eval .refusing (Env.empty.set 1 .unit) ⟨[], [.unit], 4⟩)).outcome := by
  have h := Comp.eval_pure (c := pairWith "x") rfl
  obtain ⟨v, w', hv, -, -, hstore, -⟩ :=
    (h.1 (Env.empty.set 1 .unit) [.unit, .int 5] .start rfl).1 .tuple
  have hkey := (h.2 _ rfl .refusing (Env.empty.set 1 .unit) .start).2 (pairWith "y") .refusing
    (Env.empty.set 1 .unit) ⟨[], [.unit], 4⟩ rfl fun _ _ => rfl
  exact ⟨rfl, rfl, .tuple, ⟨v, w', hv, hstore fun _ => Comp.noConfusion⟩, rfl, hkey⟩

end AnfWasm
