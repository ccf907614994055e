import AnfWasm.Proofs.Lowering.Code
import AnfWasm.Proofs.Lowering.Heap

/-!
# What the code of one operation does

`Meets A calls H R r r'` relates the end of an evaluation and the end of a run that start with the
heap `H`.  A value is met by an end with a result that stands for it, and a trap by a trap; both
with related states, if the words that were taken fit in the program's part of the memory and the
host was asked for nothing but `calls`.  Of evaluations that stop with an error or run out of the
budget nothing is said.

`InLocals` relates an environment to the locals of a run: the frame knows the local of each stamp
that has a value.  Code changes no locals but those that it allots (`KeepsLocals`).

* `InLocals.operands`   operands are pushed;
* `Allocates.runs`      an object is written at the heap pointer;
* `meets_prim2`, `meets_object`, `meets_newBox`, `meets_element`, `meets_readBox`, `meets_writeBox`
                        each operation ends as it should.
-/

namespace AnfWasm.Lowering

open Wasm

/-! ### ends -/

section
variable {α β γ δ : Type}

def Meets (A : Area) (calls : List ForeignCall) (H : Heap) (R : Heap → α → β → Prop) :
    Eval.Result α → EStateM.Result Halt Store β → Prop
  | .ok a w, r' => A.HasRoom calls w →
      ∃ b s H', r' = .ok b s ∧ H.Extends H' ∧ Related A w s H' ∧ R H' a b
  | .error .trap w, r' => A.HasRoom calls w →
      ∃ s H', r' = .error .trap s ∧ H.Extends H' ∧ Related A w s H'
  | .error _ _, _ => True

variable {A : Area} {calls : List ForeignCall} {H H₁ : Heap} {R : Heap → α → β → Prop}
  {S : Heap → γ → δ → Prop}

/-- an end that is seen from an earlier heap -/
theorem Meets.after {r : Eval.Result α} {r' : EStateM.Result Halt Store β} (he : H.Extends H₁)
    (h : Meets A calls H₁ R r r') : Meets A calls H R r r' := by
  match r, h with
  | .ok a w, h =>
    intro hin
    obtain ⟨b, s, H', hr, he', hrel, hR⟩ := h hin
    exact ⟨b, s, H', hr, he.trans he', hrel, hR⟩
  | .error .trap w, h =>
    intro hin
    obtain ⟨s, H', hr, he', hrel⟩ := h hin
    exact ⟨s, H', hr, he.trans he', hrel⟩
  | .error .error _, _ => trivial
  | .error .exhausted _, _ => trivial

theorem Meets.bind {x : Eval α} {y : Exec β} {f : α → Eval γ} {g : β → Exec δ} {w : World}
    {s : Store} (h : Meets A calls H R (x w) (y s)) (hgrow : ∀ a, (f a).Grows)
    (hf : ∀ a b w' s' H', H.Extends H' → Related A w' s' H' → R H' a b →
      Meets A calls H' S (f a w') (g b s')) : Meets A calls H S ((x >>= f) w) ((y >>= g) s) := by
  cases hx : x w with
  | error e w' =>
    rw [hx] at h
    rw [bind_of_error hx]
    cases e with
    | trap =>
      intro hin
      obtain ⟨s', H', hr, he, hrel⟩ := h hin
      exact ⟨s', H', bind_of_error hr, he, hrel⟩
    | error => trivial
    | exhausted => trivial
  | ok a w' =>
    rw [hx] at h
    rw [bind_of_ok hx]
    -- what is within bounds at the end is so here
    have hnext : A.HasRoom calls w' → Meets A calls H S (f a w') ((y >>= g) s) := by
      intro hin
      obtain ⟨b, s', H', hr, he, hrel, hR⟩ := h hin
      rw [bind_of_ok hr]
      exact (hf a b w' s' H' he hrel hR).after he
    have hw := hgrow a w'
    cases hfa : f a w' with
    | ok c w'' =>
      rw [hfa] at hnext hw
      intro hin
      exact hnext (hin.before hw) hin
    | error e w'' =>
      rw [hfa] at hnext hw
      cases e with
      | trap =>
        intro hin
        exact hnext (hin.before hw) hin
      | error => trivial
      | exhausted => trivial

theorem Meets.imp {Q : Heap → α → β → Prop} {r : Eval.Result α} {r' : EStateM.Result Halt Store β}
    (h : Meets A calls H R r r') (hRQ : ∀ H' a b, R H' a b → Q H' a b) :
    Meets A calls H Q r r' := by
  match r, h with
  | .ok a w, h =>
    intro hin
    obtain ⟨b, s, H', hr, he, hrel, hR⟩ := h hin
    exact ⟨b, s, H', hr, he, hrel, hRQ H' a b hR⟩
  | .error .trap w, h => exact h
  | .error .error _, _ => trivial
  | .error .exhausted _, _ => trivial

/-- the run goes on a little when the evaluation has ended -/
theorem Meets.post {Q : Heap → α → δ → Prop} {r : Eval.Result α} {y : Exec β} {g : β → Exec δ}
    {s : Store} (h : Meets A calls H R r (y s))
    (hg : ∀ a b s' H', R H' a b → ∃ c, g b s' = .ok c s' ∧ Q H' a c) :
    Meets A calls H Q r ((y >>= g) s) := by
  match r, h with
  | .ok a w, h =>
    intro hin
    obtain ⟨b, s', H', hr, he, hrel, hR⟩ := h hin
    obtain ⟨c, hc, hQ⟩ := hg a b s' H' hR
    exact ⟨c, s', H', (bind_of_ok hr).trans hc, he, hrel, hQ⟩
  | .error .trap w, h =>
    intro hin
    obtain ⟨s', H', hr, he, hrel⟩ := h hin
    exact ⟨s', H', bind_of_error hr, he, hrel⟩
  | .error .error _, _ => trivial
  | .error .exhausted _, _ => trivial

end

/-! ### locals -/

/-- the locals below `n` are as before -/
structure KeepsLocals (n : Nat) (ls ls' : List Word) : Prop where
  length : ls'.length = ls.length
  below : ∀ i < n, ls'[i]? = ls[i]?

theorem KeepsLocals.refl (n : Nat) (ls : List Word) : KeepsLocals n ls ls := ⟨rfl, fun _ _ => rfl⟩

theorem KeepsLocals.trans {n m : Nat} {ls ls' ls'' : List Word} (h : KeepsLocals n ls ls')
    (h' : KeepsLocals m ls' ls'') (hnm : n ≤ m) : KeepsLocals n ls ls'' :=
  ⟨h'.length.trans h.length, fun i hi => (h'.below i (by omega)).trans (h.below i hi)⟩

theorem keepsLocals_set {n i : Nat} (ls : List Word) (w : Word) (h : n ≤ i) :
    KeepsLocals n ls (ls.set i w) :=
  ⟨List.length_set, fun _ hj => List.getElem?_set_ne (by omega)⟩

/-- The frame knows the local of each stamp that has a value, and these stamps are among `K`. -/
structure InLocals (H : Heap) (K : List UInt32) (fr : Frame) (env : Env) (ls : List Word) :
    Prop where
  known : ∀ n v, env n = some v → n ∈ K
  slot : ∀ n v, env n = some v → ∃ i w, fr.slots.lookup n = some i ∧ i < fr.count ∧
    ls[i]? = some w ∧ H.Represents v w

namespace InLocals
variable {H H' : Heap} {K K' : List UInt32} {fr fr' : Frame} {env : Env} {ls ls' : List Word}

theorem mono (h : InLocals H K fr env ls) (he : H.Extends H') : InLocals H' K fr env ls where
  known := h.known
  slot n v hv := by
    obtain ⟨i, w, hi, hlt, hw, hr⟩ := h.slot n v hv
    exact ⟨i, w, hi, hlt, hw, hr.mono he⟩

theorem weaken (h : InLocals H K fr env ls) (hK : ∀ n ∈ K, n ∈ K') : InLocals H K' fr env ls where
  known n v hv := hK n (h.known n v hv)
  slot := h.slot

theorem keep (h : InLocals H K fr env ls) (hk : KeepsLocals fr.count ls ls') :
    InLocals H K fr env ls' where
  known := h.known
  slot n v hv := by
    obtain ⟨i, w, hi, hlt, hw, hr⟩ := h.slot n v hv
    exact ⟨i, w, hi, hlt, (hk.below i hlt).trans hw, hr⟩

/-- new locals do not hide those that are in use -/
theorem allot {xs : List Ident} (h : InLocals H K fr env ls) (ha : Allots xs fr fr')
    (hf : Fresh K xs) : InLocals H K fr' env ls where
  known := h.known
  slot n v hv := by
    obtain ⟨i, w, hi, hlt, hw, hr⟩ := h.slot n v hv
    have hn : n ∉ stamps xs := fun hx => hf.2 n hx (h.known n v hv)
    exact ⟨i, w, (ha.slots n hn).trans hi, Nat.lt_of_lt_of_le hlt ha.count, hw, hr⟩

theorem bind (h : InLocals H K fr env ls) {x : Ident} (hx : x.stamp ∉ K) {v : Value} {u : Word}
    (hr : H.Represents v u) (hlen : fr.count < ls.length) :
    InLocals H (x.stamp :: K) (fr.bind x) (env.set x.stamp v) (ls.set fr.count u) where
  known n v' hv := by
    unfold Env.set at hv
    split at hv
    · rename_i hn
      exact hn ▸ List.mem_cons_self
    · exact List.mem_cons_of_mem _ (h.known n v' hv)
  slot n v' hv := by
    unfold Env.set at hv
    split at hv
    · rename_i hn
      obtain rfl := Option.some.inj hv
      refine ⟨fr.count, u, ?_, by simp, List.getElem?_set_self hlen, hr⟩
      show ((x.stamp, fr.count) :: fr.slots).lookup n = _
      rw [hn, List.lookup_cons_self]
    · obtain ⟨i, w, hi, hlt, hw, hr'⟩ := h.slot n v' hv
      have hn : n ∉ stamps [x] := fun hm => hx (List.mem_singleton.mp hm ▸ h.known n v' hv)
      have hlt' : i < (fr.bind x).count := fr.count_bind x ▸ Nat.lt_succ_of_lt hlt
      refine ⟨i, w, ((allots_bind fr x).slots n hn).trans hi, hlt', ?_, hr'⟩
      rw [List.getElem?_set_ne (by omega)]
      exact hw

end InLocals

/-! ### operands -/

theorem values?_cons {env : Env} {a : Imm} {args : List Imm} {vs : List Value}
    (h : values? env (a :: args) = some vs) :
    ∃ v us, a.value? env = some v ∧ values? env args = some us ∧ vs = v :: us := by
  unfold values? at h
  rw [List.map_cons] at h
  cases ha : a.value? env with
  | none => exact absurd h (by simp [ha, collect])
  | some v =>
    rw [ha] at h
    obtain ⟨us, hus, rfl⟩ := Option.map_eq_some_iff.mp h
    exact ⟨v, us, rfl, hus, rfl⟩

/-- the code pushes one word and does nothing else -/
def PushesWord (code : Code) (ls : List Word) (u : Word) : Prop :=
  ∀ (Y : Targets) (st : List Word) (s : Store),
    Instr.execAll Y code ⟨st, ls⟩ s = .ok ⟨u :: st, ls⟩ s

/-- the word of an operand -/
def OperandWord (fr : Frame) (ls : List Word) (a : Imm) (u : Word) : Prop :=
  ∀ code, Pushes fr a code → PushesWord code ls u

/-- the word of an operand, if it is a constant or bound to one of the locals -/
def operandWord? (fr : Frame) (ls : List Word) : Imm → Option Word
  | .const c => some (constWord c)
  | .id x => (fr.slots.lookup x.stamp).bind fun i => ls[i]?

def FieldWord (fr : Frame) (ls : List Word) (f : Field) (u : Word) : Prop :=
  ∀ code, PushesField fr f code → PushesWord code ls u

section
variable {H : Heap} {K : List UInt32} {fr : Frame} {env : Env} {ls : List Word}

theorem operandWord_of_some {a : Imm} {u : Word} (h : operandWord? fr ls a = some u) :
    OperandWord fr ls a u := by
  cases a with
  | const c =>
    obtain rfl : constWord c = u := Option.some.inj h
    rintro code ⟨⟩ Y st s
    rfl
  | id x =>
    obtain ⟨i, hi, hu⟩ := Option.bind_eq_some_iff.mp h
    rintro code (_ | hj) Y st s
    obtain rfl := Option.some.inj (hi.symm.trans hj)
    rw [Instr.execAll_singleton]
    exact Instr.exec_localGet hu

theorem InLocals.operand (h : InLocals H K fr env ls) {a : Imm} {v : Value}
    (hv : a.value? env = some v) : ∃ u, H.Represents v u ∧ OperandWord fr ls a u := by
  cases a with
  | const c =>
    obtain rfl : c.value = v := Option.some.inj hv
    refine ⟨constWord c, ?_, operandWord_of_some rfl⟩
    cases c with
    | int n => exact .int n
    | bool b => cases b with
      | true => exact .bool true
      | false => exact .bool false
    | unit => exact .unit
  | id x =>
    obtain ⟨i, w, hi, -, hw, hr⟩ := h.slot x.stamp v hv
    exact ⟨w, hr, operandWord_of_some (Option.bind_eq_some_iff.mpr ⟨i, hi, hw⟩)⟩

theorem InLocals.operands (h : InLocals H K fr env ls) {args : List Imm} {vs : List Value}
    (hv : values? env args = some vs) :
    ∃ us, List.Forall₂ H.Represents vs us ∧ List.Forall₂ (OperandWord fr ls) args us := by
  induction args generalizing vs with
  | nil =>
    obtain rfl : [] = vs := Option.some.inj hv
    exact ⟨[], .nil, .nil⟩
  | cons a args ih =>
    obtain ⟨v, vs', ha, hargs, rfl⟩ := values?_cons hv
    obtain ⟨u, hu, hw⟩ := h.operand ha
    obtain ⟨us, hus, hws⟩ := ih hargs
    exact ⟨u :: us, .cons hu hus, .cons hw hws⟩

theorem PushesAll.runs {args : List Imm} {code : Code} {us : List Word}
    (h : PushesAll fr args code) (hws : List.Forall₂ (OperandWord fr ls) args us) (Y : Targets)
    (st : List Word) (s : Store) :
    Instr.execAll Y code ⟨st, ls⟩ s = .ok ⟨us.reverse ++ st, ls⟩ s := by
  induction h generalizing us st with
  | nil =>
    cases hws
    rfl
  | cons ha has ih =>
    cases hws with
    | cons hw hws =>
      rw [Instr.execAll_append_ok (hw _ ha Y st s), ih hws, List.reverse_cons, List.append_assoc]
      rfl

/-! ### objects -/

theorem fieldWord_const (n : Int32) : FieldWord fr ls (.const n) n := by
  rintro code ⟨⟩ Y st s
  rfl

theorem fieldWord_imm {a : Imm} {u : Word} (h : OperandWord fr ls a u) :
    FieldWord fr ls (.imm a) u := by
  rintro code (_ | ha)
  exact h code ha

/-- the words of an object whose fields are a header and operands -/
theorem fieldWords {args : List Imm} {us : List Word} (header : List Word)
    (h : List.Forall₂ (OperandWord fr ls) args us) :
    List.Forall₂ (FieldWord fr ls) (header.map .const ++ args.map .imm) (header ++ us) := by
  refine List.rel_append ?_ ?_
  · rw [List.forall₂_map_left_iff]
    exact List.forall₂_same.mpr fun n _ => fieldWord_const n
  · rw [List.forall₂_map_left_iff]
    exact h.imp fun _ _ => fieldWord_imm

theorem Stores.runs {index : Nat} {fields : List Field} {code : Code} {ws : List Word}
    (h : Stores fr index fields code) (hws : List.Forall₂ (FieldWord fr ls) fields ws) (Y : Targets)
    (st : List Word) (s : Store) (hfit : address s.heap + 4 * (index + ws.length) ≤ s.memory.size) :
    Instr.execAll Y code ⟨st, ls⟩ s
      = .ok ⟨st, ls⟩ { s with memory := s.memory.write (address s.heap + 4 * index) ws } := by
  induction h generalizing ws s with
  | nil =>
    cases hws
    rfl
  | @cons index f fs value rest hvalue hrest ih =>
    cases hws with
    | @cons _ u _ us hu hus =>
      rw [List.length_cons] at hfit
      have hpush : Instr.execAll Y (.globalGet heapPointer :: value) ⟨st, ls⟩ s
          = .ok ⟨u :: s.heap :: st, ls⟩ s :=
        (Instr.execAll_cons_ok rfl).trans (hu _ hvalue Y (s.heap :: st) s)
      have hin : address s.heap + wordSize * index + 4 ≤ s.memory.size := by
        show address s.heap + 4 * index + 4 ≤ s.memory.size
        omega
      have hstore : (Instr.store (wordSize * index)).exec Y ⟨u :: s.heap :: st, ls⟩ s = .ok ⟨st, ls⟩
          { s with memory := s.memory.setWord (address s.heap + wordSize * index) u } :=
        Instr.exec_store hin
      rw [Instr.execAll_append_ok hpush, Instr.execAll_cons_ok hstore]
      refine (ih hus _ ?_).trans rfl
      show address s.heap + 4 * (index + 1 + us.length) ≤ s.memory.size
      omega

theorem Allocates.runs {fields : List Field} {code : Code} {ws : List Word}
    (h : Allocates fr fields code) (hws : List.Forall₂ (FieldWord fr ls) fields ws) (Y : Targets)
    (st : List Word) (s : Store) (hfit : address s.heap + 4 * ws.length ≤ s.memory.size) :
    Instr.execAll Y code ⟨st, ls⟩ s = .ok ⟨s.heap :: st, ls⟩
      { s with
        memory := s.memory.write (address s.heap) ws
        heap := s.heap + .ofNat (4 * ws.length) } := by
  obtain ⟨hstores⟩ := h
  have hrun := hstores.runs hws Y (s.heap :: st) s (by omega)
  have hpush : Instr.execAll Y (.globalGet heapPointer :: _) ⟨st, ls⟩ s = _ :=
    (Instr.execAll_cons_ok rfl).trans hrun
  rw [Instr.execAll_append_ok hpush, hws.length_eq]
  rfl

end

/-! ### primitives -/

theorem binOp_onInts (op : Prim2) (m n : Int32) (H : Heap) :
    match op.onInts m n with
    | .ok v => ∃ u, (binOp op).apply m n = some u ∧ H.Represents v u
    | .error _ => (binOp op).apply m n = none := by
  cases op with
  | div =>
    show match (if n = 0 ∨ m = .minValue ∧ n = -1 then _ else _ : Except Stop Value) with
      | .ok v => ∃ u, (if n = 0 ∨ m = .minValue ∧ n = -1 then none else some (m / n)) = some u ∧ _
      | .error _ => (if n = 0 ∨ m = .minValue ∧ n = -1 then none else some (m / n)) = none
    by_cases h : n = 0 ∨ m = .minValue ∧ n = -1
    · rw [if_pos h, if_pos h]
    · rw [if_neg h, if_neg h]
      exact ⟨_, rfl, .int _⟩
  | add | sub | mul | and | or => exact ⟨_, rfl, .int _⟩
  | eq | ne | lt | le | gt | ge => exact ⟨_, rfl, .bool _⟩

/-- operations on truth values are those on their words -/
theorem binOp_onBools {op : Prim2} {a b : Bool} {v : Value} (h : op.onBools a b = .ok v) :
    ∃ c, v = .bool c ∧ (binOp op).apply (truth a) (truth b) = some (truth c) := by
  cases op with
  | add | sub | mul | div => exact absurd h (by simp [Prim2.onBools])
  | eq | ne | lt | le | gt | ge | and | or =>
    obtain rfl := Except.ok.inj h
    refine ⟨_, rfl, ?_⟩
    cases a <;> cases b <;> decide

theorem not_word (b : Bool) : truth (truth b = 0) = truth (!b) := by
  cases b <;> decide

section
variable {n : Nat} {A : Area} {calls : List ForeignCall} {H : Heap} {w : World} {s : Store}
  {st ls : List Word}

/-- one word that stands for the value is left, and the locals below `n` are as before -/
def Leaves (n : Nat) (st ls : List Word) (H : Heap) (v : Value) (a : Activation) : Prop :=
  ∃ u ls', a = ⟨u :: st, ls'⟩ ∧ H.Represents v u ∧ KeepsLocals n ls ls'

theorem Leaves.after {m : Nat} {ls' : List Word} {v : Value} {a : Activation}
    (h : Leaves m st ls' H v a) (hk : KeepsLocals n ls ls') (hnm : n ≤ m) :
    Leaves n st ls H v a := by
  obtain ⟨u, ls'', ha, hu, hk'⟩ := h
  exact ⟨u, ls'', ha, hu, hk.trans hk' hnm⟩

/-- an end that changes nothing -/
theorem meets_value {v : Value} {u : Word} {r : EStateM.Result Halt Store Activation}
    (hrel : Related A w s H) (hr : r = .ok ⟨u :: st, ls⟩ s) (hu : H.Represents v u) :
    Meets A calls H (Leaves n st ls) (.ok v w) r :=
  fun _ => ⟨_, s, H, hr, .refl H, hrel, u, ls, rfl, hu, .refl n ls⟩

theorem meets_prim2 {op : Prim2} {v₁ v₂ : Value} {u₁ u₂ : Word} (Y : Targets)
    (hrel : Related A w s H) (h₁ : H.Represents v₁ u₁) (h₂ : H.Represents v₂ u₂) :
    Meets A calls H (Leaves n st ls) (Eval.ofExcept (op.apply v₁ v₂) w)
      ((Instr.binary (binOp op)).exec Y ⟨u₂ :: u₁ :: st, ls⟩ s) := by
  match v₁, v₂ with
  | .int a, .int b =>
    obtain rfl := h₁.int_eq
    obtain rfl := h₂.int_eq
    have h := binOp_onInts op u₁ u₂ H
    show Meets A calls H _ (Eval.ofExcept (op.onInts u₁ u₂) w) _
    cases hop : op.onInts u₁ u₂ with
    | ok v =>
      rw [hop] at h
      obtain ⟨u, hu, hv⟩ := h
      exact meets_value hrel (Instr.exec_binary hu) hv
    | error e =>
      rw [hop] at h
      cases e with
      | trap => exact fun _ => ⟨s, H, Instr.exec_binary_trap h, .refl H, hrel⟩
      | error => trivial
      | exhausted => trivial
  | .bool a, .bool b =>
    obtain rfl := h₁.bool_eq
    obtain rfl := h₂.bool_eq
    show Meets A calls H _ (Eval.ofExcept (op.onBools a b) w) _
    cases hop : op.onBools a b with
    | ok v =>
      obtain ⟨c, rfl, hc⟩ := binOp_onBools hop
      exact meets_value hrel (Instr.exec_binary hc) (.bool c)
    | error e => cases op <;> cases hop <;> trivial
  | .int _, .bool _ | .int _, .unit | .int _, .adt _ _ _ | .int _, .tuple _ | .int _, .box _
  | .bool _, .int _ | .bool _, .unit | .bool _, .adt _ _ _ | .bool _, .tuple _ | .bool _, .box _
  | .unit, _ | .adt _ _ _, _ | .tuple _, _ | .box _, _ => trivial

/-! ### objects and cells -/

/-- words that fit are free at the heap pointer -/
theorem heap_room {k : Nat} (hrel : Related A w s H) (hk : 0 < k)
    (hfit : A.base + 4 * (w.words + k) ≤ A.limit) :
    A.top w < 2 ^ 32 ∧ address s.heap = A.top w ∧ address s.heap + 4 * k ≤ s.memory.size ∧
      H.Free (A.top w) k := by
  have hroom := hrel.valid.room
  have hlimit := A.limit_le
  have hsize := H.memory.size_le
  have hend : A.top w + 4 * k ≤ A.limit := by
    unfold Area.top
    omega
  have htop : A.top w < 2 ^ 32 := by omega
  have haddr : address s.heap = A.top w := by rw [hrel.heap, address_ofNat htop]
  refine ⟨htop, haddr, ?_, hrel.valid.free hend⟩
  rw [haddr, hrel.memory]
  omega

theorem meets_object {fr : Frame} {K : List UInt32} {env : Env} {v : Value} {header : List Word}
    {vs : List Value} {args : List Imm} {code : Code}
    (h : Allocates fr (header.map .const ++ args.map .imm) code) (hpos : 0 < header.length)
    (hv : v.object? = some (header, vs)) (hH : InLocals H K fr env ls)
    (hvs : values? env args = some vs) (hrel : Related A w s H) (Y : Targets) :
    Meets A calls H (Leaves n st ls)
      (.ok v { w with words := w.words + (header.length + vs.length) })
      (Instr.execAll Y code ⟨st, ls⟩ s) := by
  intro hin
  obtain ⟨us, hus, hws⟩ := hH.operands hvs
  have hlen : (header ++ us).length = header.length + vs.length := by
    rw [List.length_append, hus.length_eq]
  obtain ⟨htop, haddr, hroom, hfree⟩ := heap_room hrel (by omega) hin.words
  rw [← hlen] at hroom hfree
  have hrun := h.runs (fieldWords header hws) Y st s hroom
  rw [haddr] at hrun
  refine ⟨_, _, _, hrun, hfree.extends_freeze, ?_, s.heap, ls, rfl, ?_, .refl n ls⟩
  · rw [← hlen]
    exact hrel.freeze hfree
  · rw [hrel.heap]
    exact Heap.represents_freeze hv hfree htop hus

theorem meets_newBox {fr : Frame} {v : Value} {u : Word} {a : Imm} {code : Code}
    (h : Allocates fr [.imm a] code) (hu : H.Represents v u) (hw : OperandWord fr ls a u)
    (hrel : Related A w s H) (Y : Targets) :
    Meets A calls H (Leaves n st ls)
      (.ok (.box w.store.length) { w with words := w.words + 1, store := w.store ++ [v] })
      (Instr.execAll Y code ⟨st, ls⟩ s) := by
  intro hin
  obtain ⟨-, haddr, hroom, hfree⟩ := heap_room hrel Nat.one_pos hin.words
  have hrun := h.runs (.cons (fieldWord_imm hw) .nil) Y st s hroom
  rw [haddr] at hrun
  refine ⟨_, _, _, hrun, hfree.extends_newCell u, hrel.newCell hfree hu, s.heap, ls, rfl, .box ?_,
    .refl n ls⟩
  show (H.cells ++ [A.top w])[w.store.length]? = some (address s.heap)
  rw [haddr, ← hrel.count, List.getElem?_concat_length]

/-- a frozen word lies in the memory, be it the program's or the host's -/
theorem frozen_in_memory {a : Nat} (hrel : Related A w s H) (ha : H.frozen a)
    (hfit : A.top w ≤ A.limit) : a + 4 ≤ H.memory.size := by
  have hroom := hrel.valid.room
  have hlimit := A.limit_le
  rcases (hrel.valid.frozen a ha).2 with hlow | ⟨-, hhigh, -⟩
  · omega
  · exact hhigh

theorem meets_element {v : Value} {u : Word} (index : Nat) (Y : Targets)
    (hrel : Related A w s H) (hu : H.Represents v u) :
    Meets A calls H (Leaves n st ls) (Eval.ofOption (v.element? index) w)
      ((Instr.load (wordSize * (index + 1))).exec Y ⟨u :: st, ls⟩ s) := by
  match v with
  | .tuple vs =>
    show Meets A calls H _ (Eval.ofOption vs[index]? w) _
    cases he : vs[index]? with
    | none => trivial
    | some e =>
      intro hin
      obtain ⟨hfrozen, hword⟩ := hu.element he
      have hload : address u + wordSize * (index + 1) + 4 ≤ s.memory.size := by
        rw [hrel.memory]
        exact frozen_in_memory hrel hfrozen hin.words
      rw [← hrel.memory] at hword
      exact meets_value hrel (Instr.exec_load hload) hword hin
  | .int _ | .bool _ | .unit | .adt _ _ _ | .box _ => trivial

/-- a cell lies in the memory -/
theorem cell_in_memory {l : Nat} {u : Word} (hrel : Related A w s H)
    (hl : H.cells[l]? = some (address u)) (hfit : A.top w ≤ A.limit) :
    address u + 0 + 4 ≤ s.memory.size := by
  have hroom := hrel.valid.room
  have hlimit := A.limit_le
  have hbelow := (hrel.valid.cell _ (List.mem_of_getElem? hl)).2
  rw [hrel.memory]
  omega

theorem meets_readBox {l : Nat} {u : Word} (Y : Targets) (hrel : Related A w s H)
    (hu : H.Represents (.box l) u) :
    Meets A calls H (Leaves n st ls) (Eval.readBox l w)
      ((Instr.load 0).exec Y ⟨u :: st, ls⟩ s) := by
  show Meets A calls H _ (Eval.ofOption w.store[l]? w) _
  cases hv : w.store[l]? with
  | none => trivial
  | some v =>
    intro hin
    have hl := hu.cell
    have hword := hrel.content l (address u) v hl hv
    rw [← hrel.memory] at hword
    exact meets_value hrel (Instr.exec_load (cell_in_memory hrel hl hin.words)) hword hin

theorem meets_writeBox {l : Nat} {v : Value} {u₁ u₂ : Word} (Y : Targets)
    (hrel : Related A w s H) (h₁ : H.Represents (.box l) u₁) (h₂ : H.Represents v u₂) :
    Meets A calls H (Leaves n st ls) (Eval.writeBox l v w)
      (Instr.execAll Y [.store 0, .const 0] ⟨u₂ :: u₁ :: st, ls⟩ s) := by
  have hl := h₁.cell
  have hlt : l < w.store.length := hrel.count ▸ (List.getElem?_eq_some_iff.mp hl).1
  have heval : Eval.writeBox l v w = .ok .unit { w with store := w.store.set l v } := by
    show (if l < w.store.length then _ else _ : Eval Value) w = _
    rw [if_pos hlt]
    rfl
  rw [heval]
  intro hin
  have hstore : (Instr.store 0).exec Y ⟨u₂ :: u₁ :: st, ls⟩ s
      = .ok ⟨st, ls⟩ { s with memory := s.memory.setWord (address u₁) u₂ } :=
    Instr.exec_store (cell_in_memory hrel hl hin.words)
  rw [Instr.execAll_cons_ok hstore]
  exact ⟨_, _, _, rfl, hrel.valid.extends_setCell (List.mem_of_getElem? hl) u₂,
    hrel.setCell hl h₂, 0, ls, rfl, .unit, .refl n ls⟩

end

end AnfWasm.Lowering
