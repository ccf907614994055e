/-!
# Actions that may stop

What is known of the parts of an action in `EStateM`, when it is run from a state.
-/

namespace AnfWasm

variable {ε σ α β : Type} {x : EStateM ε σ α} {f : α → EStateM ε σ β} {s s' : σ}

theorem bind_of_ok {a : α} (h : x s = .ok a s') : (x >>= f) s = f a s' := by
  show EStateM.bind x f s = _
  unfold EStateM.bind
  rw [h]

theorem bind_of_error {e : ε} (h : x s = .error e s') : (x >>= f) s = .error e s' := by
  show EStateM.bind x f s = _
  unfold EStateM.bind
  rw [h]

/-- both parts of an action that ends well do -/
theorem bind_ok {b : β} (h : (x >>= f) s = .ok b s') :
    ∃ a s₁, x s = .ok a s₁ ∧ f a s₁ = .ok b s' := by
  cases hx : x s with
  | ok a s₁ =>
    rw [bind_of_ok hx] at h
    exact ⟨a, s₁, rfl, h⟩
  | error e s₁ =>
    rw [bind_of_error hx] at h
    exact absurd h (by simp)

theorem pure_ok {a b : α} (h : (pure a : EStateM ε σ α) s = .ok b s') : b = a ∧ s' = s := by
  obtain ⟨rfl, rfl⟩ := EStateM.Result.ok.inj h
  exact ⟨rfl, rfl⟩

theorem throw_ok {e : ε} {b : α} (h : (throw e : EStateM ε σ α) s = .ok b s') : False := by
  have h' : (EStateM.Result.error e s : EStateM.Result ε σ α) = .ok b s' := h
  exact absurd h' (by simp)

/-- An action that ends well does so with `Q`, and one that stops does so with `E`. -/
def Outcome (Q : α → σ → Prop) (E : ε → Prop) : EStateM.Result ε σ α → Prop
  | .ok a s => Q a s
  | .error e _ => E e

theorem Outcome.of_ok {Q : α → σ → Prop} {E : ε → Prop} {a : α} (h : x s = .ok a s') (hQ : Q a s') :
    Outcome Q E (x s) := by
  rw [h]
  exact hQ

theorem Outcome.imp {Q Q' : α → σ → Prop} {E E' : ε → Prop} {r : EStateM.Result ε σ α}
    (h : Outcome Q E r) (hQ : ∀ a s, Q a s → Q' a s) (hE : ∀ e, E e → E' e) : Outcome Q' E' r := by
  cases r with
  | ok a s => exact hQ a s h
  | error e s => exact hE e h

/-- what follows starts where the first part ended well -/
theorem Outcome.bind {Q : α → σ → Prop} {R : β → σ → Prop} {E : ε → Prop}
    (h : Outcome Q E (x s)) (hf : ∀ a s', Q a s' → Outcome R E (f a s')) :
    Outcome R E ((x >>= f) s) := by
  cases hx : x s with
  | ok a s' =>
    rw [hx] at h
    rw [bind_of_ok hx]
    exact hf a s' h
  | error e s' =>
    rw [hx] at h
    rw [bind_of_error hx]
    exact h

/-! ### two runs -/

section
variable {τ α' β' : Type} {h : σ → τ} {g : α → α'} {k : β → β'}

/-- `x'` does on images what `x` does: it ends well exactly if `x` does, with the image of its value
in the image of its state. -/
def Carries (h : σ → τ) (g : α → α') (x : EStateM ε σ α) (x' : EStateM ε τ α') : Prop :=
  ∀ s, (∀ a t, x s = .ok a t → x' (h s) = .ok (g a) (h t)) ∧
    ∀ e t, x s = .error e t → ∃ e' t', x' (h s) = .error e' t'

theorem carries_refl (x : EStateM ε σ α) : Carries id id x x :=
  fun _ => ⟨fun _ _ hx => hx, fun e t hx => ⟨e, t, hx⟩⟩

/-- actions that always end well -/
theorem carries_of_ok {x' : EStateM ε τ α'} {a : σ → α} {t : σ → σ}
    (hx : ∀ s, x s = .ok (a s) (t s)) (hx' : ∀ s, x' (h s) = .ok (g (a s)) (h (t s))) :
    Carries h g x x' := by
  intro s
  rw [hx s]
  constructor
  · intro b t hb
    obtain ⟨rfl, rfl⟩ := EStateM.Result.ok.inj hb
    exact hx' s
  · intro e t he
    exact absurd he (by simp)

theorem carries_pure {a : α} {b : α'} (hb : b = g a) :
    Carries h g (pure a : EStateM ε σ α) (pure b) :=
  carries_of_ok (fun _ => rfl) fun _ => congrArg (EStateM.Result.ok · _) hb

theorem carries_get : Carries h h (get : EStateM ε σ σ) get :=
  carries_of_ok (fun _ => rfl) fun _ => rfl

theorem carries_modify {u : σ → σ} {u' : τ → τ} (hu : ∀ s, u' (h s) = h (u s)) :
    Carries h id (modify u : EStateM ε σ Unit) (modify u') :=
  carries_of_ok (fun _ => rfl) fun s => congrArg (EStateM.Result.ok ()) (hu s)

/-- actions that always stop -/
theorem carries_of_error {x' : EStateM ε τ α'} (hx : ∀ s, ∃ e t, x s = .error e t)
    (hx' : ∀ s, ∃ e t, x' s = .error e t) : Carries h g x x' := by
  intro s
  obtain ⟨e, t, he⟩ := hx s
  constructor
  · intro a t ha
    exact absurd (he.symm.trans ha) (by simp)
  · intro _ _ _
    exact hx' (h s)

theorem carries_throw (e e' : ε) : Carries h g (throw e : EStateM ε σ α) (throw e') :=
  carries_of_error (fun s => ⟨e, s, rfl⟩) fun s => ⟨e', s, rfl⟩

theorem Carries.bind {x' : EStateM ε τ α'} {f' : α' → EStateM ε τ β'} (hx : Carries h g x x')
    (hf : ∀ a, Carries h k (f a) (f' (g a))) : Carries h k (x >>= f) (x' >>= f') := by
  intro s
  cases hs : x s with
  | ok a t =>
    rw [bind_of_ok hs, bind_of_ok ((hx s).1 a t hs)]
    exact hf a t
  | error e t =>
    obtain ⟨e', t', hs'⟩ := (hx s).2 e t hs
    rw [bind_of_error hs, bind_of_error hs']
    exact ⟨fun _ _ h => absurd h (by simp), fun _ _ _ => ⟨e', t', rfl⟩⟩

end

end AnfWasm
