import AnfWasm.Proofs.Actions
import AnfWasm.Proofs.Semantics.Eval

/-!
# Words are only taken and calls only added

`World.Before w w'` says that the world `w'` has all the calls of `w` and has taken no fewer words.
`Eval.Grows x` says that the world is before the one in which `x` ends, however it ends.  Every
evaluation of a program is of this kind, so when the words fit at the end they fit all the way, and
the calls on the way are those at the end.
-/

namespace AnfWasm

namespace World

structure Before (w w' : World) : Prop where
  words : w.words ≤ w'.words
  trace : w.trace <+: w'.trace

theorem Before.refl (w : World) : w.Before w := ⟨Nat.le_refl _, List.prefix_rfl⟩

theorem Before.trans {w w' w'' : World} (h : w.Before w') (h' : w'.Before w'') : w.Before w'' :=
  ⟨Nat.le_trans h.words h'.words, h.trace.trans h'.trace⟩

end World

namespace Eval

/-- the world in which an evaluation has ended -/
def Result.world {α : Type} : Result α → World
  | .ok _ w => w
  | .error _ w => w

def Grows {α : Type} (x : Eval α) : Prop := ∀ w : World, w.Before (Result.world (x w))

namespace Grows
variable {α β : Type}

theorem pure (a : α) : Grows (pure a) := fun w => .refl w

theorem throw (e : Stop) : Grows (throw e : Eval α) := fun w => .refl w

theorem bind {x : Eval α} {f : α → Eval β} (hx : Grows x) (hf : ∀ a, Grows (f a)) :
    Grows (x >>= f) := by
  intro w
  have h := hx w
  cases hr : x w with
  | ok a w' =>
    rw [hr] at h
    rw [bind_of_ok hr]
    exact h.trans (hf a w')
  | error e w' =>
    rw [hr] at h
    rw [bind_of_error hr]
    exact h

theorem ofOption (o : Option α) : Grows (ofOption o) := by
  cases o with
  | none => exact throw .error
  | some a => exact pure a

theorem ofExcept (e : Except Stop α) : Grows (ofExcept e) := by
  cases e with
  | error e => exact throw e
  | ok a => exact pure a

theorem take (n : Nat) : Grows (take n) :=
  fun w => ⟨Nat.le_add_right w.words n, List.prefix_rfl⟩

theorem newBox (v : Value) : Grows (newBox v) := fun _ => ⟨Nat.le_refl _, List.prefix_rfl⟩

theorem readBox (l : Nat) : Grows (readBox l) := fun w => ofOption w.store[l]? w

theorem writeBox (l : Nat) (v : Value) : Grows (writeBox l v) := by
  intro w
  show w.Before (Result.world ((if l < w.store.length then _ else _ : Eval Value) w))
  split
  · exact ⟨Nat.le_refl _, List.prefix_rfl⟩
  · exact .refl w

theorem unary {f : Value → Eval Value} (vs : List Value) (h : ∀ v, Grows (f v)) :
    Grows (unary f vs) := by
  rcases vs with _ | ⟨v, _ | ⟨w, vs⟩⟩
  · exact throw _
  · exact h v
  · exact throw _

theorem binary {f : Value → Value → Eval Value} (vs : List Value) (h : ∀ v w, Grows (f v w)) :
    Grows (binary f vs) := by
  rcases vs with _ | ⟨v, _ | ⟨w, _ | ⟨u, vs⟩⟩⟩
  · exact throw _
  · exact throw _
  · exact h v w
  · exact throw _

theorem ask (host : Host) (i : Import) (args : List Value) : Grows (ask host i args) :=
  fun _ => ⟨Nat.le_refl _, List.prefix_append _ _⟩

end Grows

end Eval

open Eval

structure Callables.Grow (X : Callables) : Prop where
  call : ∀ f args, Grows (X.call f args)
  callForeign : ∀ f args, Grows (X.callForeign f args)

theorem Comp.grows_perform {X : Callables} (hX : X.Grow) (c : Comp) (vs : List Value) :
    Grows (c.perform X vs) := by
  cases c with
  | imm a => exact .unary vs fun v => .pure v
  | prim1 op a => exact .unary vs fun _ => .ofOption _
  | prim2 op a b => exact .binary vs fun _ _ => .ofExcept _
  | adt typeTag variant args => exact .bind (.take _) fun _ => .pure _
  | tuple args => exact .bind (.take _) fun _ => .pure _
  | tupleGet index a => exact .unary vs fun _ => .ofOption _
  | boxNew a => exact .unary vs fun v => .bind (.take _) fun _ => .newBox v
  | unbox a => exact .unary vs fun b => .bind (.ofOption _) fun l => .readBox l
  | boxSet a b => exact .binary vs fun b v => .bind (.ofOption _) fun l => .writeBox l v
  | call f args => exact hX.call f vs
  | callForeign f args => exact hX.callForeign f vs
  | branch a t e => exact .throw _
  | fail code => exact .throw _

mutual

theorem Comp.grows_eval {X : Callables} (hX : X.Grow) (c : Comp) (env : Env) :
    Grows (c.eval X env) := by
  match c with
  | .branch cond thenArm elseArm =>
    have h1 := thenArm.grows_eval hX env
    have h2 := elseArm.grows_eval hX env
    unfold Comp.eval
    refine .bind (.ofOption _) fun v => ?_
    split
    · exact h1
    · exact h2
    · exact .throw _
  | .imm _ | .prim1 _ _ | .prim2 _ _ _ | .adt _ _ _ | .tuple _ | .tupleGet _ _ | .boxNew _
  | .unbox _ | .boxSet _ _ | .call _ _ | .callForeign _ _ | .fail _ =>
    exact .bind (.ofOption _) fun vs => Comp.grows_perform hX _ vs

theorem Binding.grows_evals {X : Callables} (hX : X.Grow) (bs : List Binding) (env : Env) :
    Grows (Binding.evals X env bs) := by
  match bs with
  | [] => exact .pure env
  | ⟨id, comp, _⟩ :: bs =>
    exact .bind (comp.grows_eval hX env) fun v => Binding.grows_evals hX bs _

theorem Expr.grows_eval {X : Callables} (hX : X.Grow) (e : Expr) (env : Env) :
    Grows (e.eval X env) := by
  match e with
  | .letIn _ bs body =>
    exact .bind (Binding.grows_evals hX bs env) fun env => body.grows_eval hX env
  | .seq comp rest => exact .bind (comp.grows_eval hX env) fun _ => rest.grows_eval hX env
  | .comp comp => exact comp.grows_eval hX env

end

namespace Program

theorem grows_callForeign (p : Program) (host : Host) (f : Ident) (args : List Value) :
    Grows (p.callForeign host f args) := by
  unfold callForeign
  split
  · split
    · exact .ask host _ args
    · exact .throw _
  · exact .throw _

theorem grows_call (p : Program) (host : Host) (budget : Nat) (f : Ident) (args : List Value) :
    Grows (p.call host budget f args) := by
  induction budget generalizing f args with
  | zero => exact .throw _
  | succ n ih =>
    unfold call
    split
    · split
      · exact Expr.grows_eval ⟨ih, p.grows_callForeign host⟩ _ _
      · exact .throw _
    · exact .throw _

theorem grow_callables (p : Program) (host : Host) (budget : Nat) :
    (p.callables host budget).Grow :=
  ⟨p.grows_call host budget, p.grows_callForeign host⟩

end Program

end AnfWasm
