import AnfWasm.Lowering.Basic
import Mathlib.Algebra.Group.Nat.Defs
import Mathlib.Data.List.Basic
import Mathlib.Data.List.Forall2

/-!
# The map and the arena of interned types

Types are asked for one after the other (`internAll`).  What is known of the map is that it leads
from each type of the arena to its place there, and from no other type (`InStep`).

* `InStep.intern`      one request keeps this;
* `InStep.internAll`   so do any requests, and all indices that were given out are right in the end;
* `FirstUses`          the arena has each type once, in the order in which they are first asked for;
* `internAll_narrow`   with indices of another width the same requests are answered by the same
                       indices, cut to that width.
-/

namespace AnfWasm.Lowering

open Wasm

/-- **Each type once, in the order of first use.** -/
structure FirstUses (used types : List FuncType) : Prop where
  mem : ∀ t, t ∈ types ↔ t ∈ used
  order : types.Pairwise fun t u => used.idxOf t < used.idxOf u

namespace FirstUses
variable {used types : List FuncType}

theorem nil : FirstUses [] [] := ⟨fun _ => Iff.rfl, .nil⟩

theorem nodup (h : FirstUses used types) : types.Nodup := by
  refine h.order.imp fun hlt heq => ?_
  rw [heq] at hlt
  exact Nat.lt_irrefl _ hlt

/-- what is used later does not change where a type is used first -/
theorem order_append (h : FirstUses used types) (t : FuncType) :
    types.Pairwise fun u v => (used ++ [t]).idxOf u < (used ++ [t]).idxOf v := by
  refine h.order.imp_of_mem fun hu hv hlt => ?_
  rw [List.idxOf_append_of_mem ((h.mem _).mp hu), List.idxOf_append_of_mem ((h.mem _).mp hv)]
  exact hlt

theorem again (h : FirstUses used types) {t : FuncType} (ht : t ∈ types) :
    FirstUses (used ++ [t]) types := by
  refine ⟨fun u => ?_, h.order_append t⟩
  rw [h.mem, List.mem_append, List.mem_singleton]
  exact ⟨.inl, fun hu => hu.elim id fun heq => heq ▸ (h.mem t).mp ht⟩

theorem new (h : FirstUses used types) {t : FuncType} (ht : t ∉ types) :
    FirstUses (used ++ [t]) (types ++ [t]) := by
  refine ⟨fun u => ?_, ?_⟩
  · rw [List.mem_append, List.mem_append, h.mem]
  · refine List.pairwise_append.mpr ⟨h.order_append t, List.pairwise_singleton _ _, ?_⟩
    intro u hu v hv
    obtain rfl := List.mem_singleton.mp hv
    -- the new type is first used at the end
    have hu := (h.mem _).mp hu
    rw [List.idxOf_append_of_mem hu, List.idxOf_append_of_notMem fun hv => ht ((h.mem v).mpr hv)]
    exact Nat.lt_of_lt_of_le (List.idxOf_lt_length_of_mem hu) (Nat.le_add_right _ _)

end FirstUses

/-- what is in a list keeps its index when the list grows -/
theorem getElem?_of_prefix {α : Type} {xs ys : List α} (h : xs <+: ys) {i : Nat} {a : α}
    (hi : xs[i]? = some a) : ys[i]? = some a := by
  obtain ⟨more, rfl⟩ := h
  rw [List.getElem?_append_left (List.getElem?_eq_some_iff.mp hi).1, hi]

namespace Interner

variable {ι : Type} [Index ι]

/-- the arena has the type at the place of that index -/
def Indexed (n : Interner ι) (t : FuncType) (i : ι) : Prop :=
  ∃ k, n.types[k]? = some t ∧ Index.ofNat k = i

/-- **The map and the arena are in step.** -/
structure InStep (n : Interner ι) : Prop where
  nodup : n.types.Nodup
  find : ∀ t i, n.map.lookup t = some i ↔ n.Indexed t i

theorem Indexed.mono {n n' : Interner ι} (h : n.types <+: n'.types) {t : FuncType} {i : ι}
    (hi : n.Indexed t i) : n'.Indexed t i := by
  obtain ⟨k, hk, rfl⟩ := hi
  exact ⟨k, getElem?_of_prefix h hk, rfl⟩

theorem inStep_empty : (empty : Interner ι).InStep :=
  ⟨.nil, fun t i => ⟨fun h => absurd h (by simp [empty]), fun ⟨k, hk, _⟩ => absurd hk (by
    simp [empty, types, Arena.empty])⟩⟩

/-! ### one request -/

/-- the interner with a new type -/
def add (n : Interner ι) (t : FuncType) : Interner ι :=
  ⟨(t, Index.ofNat n.arena.size) :: n.map, ⟨n.types ++ [t]⟩⟩

theorem indexed_add {n : Interner ι} {t u : FuncType} {i : ι} :
    (n.add t).Indexed u i ↔ n.Indexed u i ∨ u = t ∧ Index.ofNat n.arena.size = i := by
  constructor
  · rintro ⟨k, hk, rfl⟩
    change (n.types ++ [t])[k]? = some u at hk
    rcases Nat.lt_trichotomy k n.types.length with hlt | rfl | hgt
    · rw [List.getElem?_append_left hlt] at hk
      exact .inl ⟨k, hk, rfl⟩
    · rw [List.getElem?_concat_length] at hk
      exact .inr ⟨(Option.some.inj hk).symm, rfl⟩
    · rw [List.getElem?_eq_none (by rw [List.length_append]; exact hgt)] at hk
      exact absurd hk (by simp)
  · rintro (h | ⟨rfl, rfl⟩)
    · exact h.mono (List.prefix_append _ _)
    · exact ⟨n.types.length, List.getElem?_concat_length, rfl⟩

namespace InStep
variable {n : Interner ι}

theorem add (h : n.InStep) {t : FuncType} (ht : t ∉ n.types) : (n.add t).InStep := by
  constructor
  · refine List.nodup_append.mpr ⟨h.nodup, List.pairwise_singleton _ t, fun u hu v hv heq => ?_⟩
    exact ht (List.mem_singleton.mp hv ▸ heq ▸ hu)
  · intro u i
    rw [indexed_add]
    show ((t, Index.ofNat n.arena.size) :: n.map).lookup u = some i ↔ _
    rw [List.lookup_cons]
    by_cases hu : u = t
    · subst hu
      have hnot : ¬n.Indexed u i := fun ⟨k, hk, _⟩ => ht (List.mem_of_getElem? hk)
      rw [beq_self_eq_true, or_iff_right hnot]
      exact ⟨fun hi => ⟨rfl, Option.some.inj hi⟩, fun hi => congrArg some hi.2⟩
    · rw [beq_false_of_ne hu, or_iff_left fun hi => hu hi.1]
      exact h.find u i

/-- a type is found in the map if the arena has it, and added to both if not -/
theorem intern_cases (h : n.InStep) (t : FuncType) :
    (∃ i, n.Indexed t i ∧ n.intern t = (i, n)) ∨
      t ∉ n.types ∧ n.intern t = (Index.ofNat n.arena.size, n.add t) := by
  unfold Interner.intern
  cases hi : n.map.lookup t with
  | some i => exact .inl ⟨i, (h.find t i).mp hi, rfl⟩
  | none =>
    refine .inr ⟨fun ht => ?_, rfl⟩
    obtain ⟨k, hk⟩ := List.mem_iff_getElem?.mp ht
    rw [(h.find t _).mpr ⟨k, hk, rfl⟩] at hi
    exact absurd hi (by simp)

theorem intern (h : n.InStep) (t : FuncType) : (n.intern t).2.InStep := by
  rcases h.intern_cases t with ⟨i, -, heq⟩ | ⟨ht, heq⟩
  · rwa [heq]
  · rw [heq]
    exact h.add ht

theorem indexed_intern (h : n.InStep) (t : FuncType) :
    n.types <+: (n.intern t).2.types ∧ (n.intern t).2.Indexed t (n.intern t).1 := by
  rcases h.intern_cases t with ⟨i, hi, heq⟩ | ⟨-, heq⟩
  · rw [heq]
    exact ⟨List.prefix_rfl, hi⟩
  · rw [heq]
    exact ⟨List.prefix_append _ _, indexed_add.mpr (.inr ⟨rfl, rfl⟩)⟩

theorem firstUses_intern (h : n.InStep) {used : List FuncType} (hn : FirstUses used n.types)
    (t : FuncType) : FirstUses (used ++ [t]) (n.intern t).2.types := by
  rcases h.intern_cases t with ⟨i, ⟨k, hk, -⟩, heq⟩ | ⟨ht, heq⟩
  · rw [heq]
    exact hn.again (List.mem_of_getElem? hk)
  · rw [heq]
    exact hn.new ht

end InStep

/-! ### any requests -/

/-- requests one after the other, and the indices that they are answered by -/
def internAll (n : Interner ι) : List FuncType → List ι × Interner ι
  | [] => ([], n)
  | t :: ts =>
    let (i, n) := n.intern t
    let (is, n) := n.internAll ts
    (i :: is, n)

theorem internAll_cons {n n₁ n₂ : Interner ι} {t : FuncType} {i : ι} {ts : List FuncType}
    {is : List ι} (h1 : n.intern t = (i, n₁)) (h2 : n₁.internAll ts = (is, n₂)) :
    n.internAll (t :: ts) = (i :: is, n₂) := by
  rw [internAll, h1]
  show (i :: (n₁.internAll ts).1, (n₁.internAll ts).2) = _
  rw [h2]

theorem internAll_append (n : Interner ι) (ts us : List FuncType) :
    n.internAll (ts ++ us) = ((n.internAll ts).1 ++ ((n.internAll ts).2.internAll us).1,
      ((n.internAll ts).2.internAll us).2) := by
  induction ts generalizing n with
  | nil => rfl
  | cons t ts ih => exact internAll_cons rfl (ih _)

namespace InStep
variable {n : Interner ι}

/-- Whatever is asked for, the map and the arena stay in step, and each index that was given out
leads to its type in the end. -/
theorem internAll (h : n.InStep) (ts : List FuncType) :
    (n.internAll ts).2.InStep ∧ n.types <+: (n.internAll ts).2.types ∧
      List.Forall₂ (n.internAll ts).2.Indexed ts (n.internAll ts).1 := by
  induction ts generalizing n with
  | nil => exact ⟨h, List.prefix_rfl, .nil⟩
  | cons t ts ih =>
    obtain ⟨hstep, hgrown, hindexed⟩ := ih (h.intern t)
    obtain ⟨hpre, hi⟩ := h.indexed_intern t
    exact ⟨hstep, hpre.trans hgrown, .cons (hi.mono hgrown) hindexed⟩

theorem firstUses_internAll (h : n.InStep) {used : List FuncType} (hn : FirstUses used n.types)
    (ts : List FuncType) : FirstUses (used ++ ts) (n.internAll ts).2.types := by
  induction ts generalizing n used with
  | nil => exact (List.append_nil used).symm ▸ hn
  | cons t ts ih =>
    have hnext := ih (h.intern t) (h.firstUses_intern hn t)
    rw [List.append_assoc] at hnext
    exact hnext

end InStep

/-! ### indices of another width -/

/-- the interner with its indices cut to another width -/
def narrow (n : Interner Nat) : Interner ι := ⟨n.map.map fun e => (e.1, Index.ofNat e.2), n.arena⟩

theorem lookup_narrow (n : Interner Nat) (t : FuncType) :
    (n.narrow : Interner ι).map.lookup t = (n.map.lookup t).map Index.ofNat := by
  show (n.map.map fun e => (e.1, (Index.ofNat e.2 : ι))).lookup t = _
  induction n.map with
  | nil => rfl
  | cons e es ih =>
    rw [List.map_cons, List.lookup_cons, List.lookup_cons, ih]
    cases t == e.1 <;> rfl

theorem intern_narrow (n : Interner Nat) (t : FuncType) :
    (n.narrow : Interner ι).intern t = (Index.ofNat (n.intern t).1, (n.intern t).2.narrow) := by
  unfold intern
  rw [lookup_narrow]
  cases n.map.lookup t <;> rfl

theorem internAll_narrow (n : Interner Nat) (ts : List FuncType) :
    (n.narrow : Interner ι).internAll ts =
      ((n.internAll ts).1.map Index.ofNat, (n.internAll ts).2.narrow) := by
  induction ts generalizing n with
  | nil => rfl
  | cons t ts ih => exact internAll_cons (intern_narrow n t) (ih _)

theorem lt_of_indexed {n : Interner Nat} {ts : List FuncType} {is : List Nat}
    (h : List.Forall₂ n.Indexed ts is) : ∀ i ∈ is, i < n.types.length := by
  induction h with
  | nil => exact fun i hi => absurd hi List.not_mem_nil
  | cons hi _ ih =>
    obtain ⟨k, hk, rfl⟩ := hi
    exact List.forall_mem_cons.mpr ⟨(List.getElem?_eq_some_iff.mp hk).1, ih⟩

/-- no index is cut while there is one for each type -/
theorem internAll_uint32 (ts : List FuncType)
    (h : ((empty : Interner Nat).internAll ts).2.types.length ≤ 2 ^ 32) :
    ((empty : Interner UInt32).internAll ts).1.map UInt32.toNat =
      ((empty : Interner Nat).internAll ts).1 := by
  have hnarrow : (empty : Interner UInt32) = (empty : Interner Nat).narrow := rfl
  obtain ⟨-, -, hindexed⟩ := (inStep_empty : (empty : Interner Nat).InStep).internAll ts
  rw [hnarrow, internAll_narrow, List.map_map]
  refine (List.map_congr_left fun i hi => ?_).trans (List.map_id _)
  exact UInt32.toNat_ofNat_of_lt' (Nat.lt_of_lt_of_le (lt_of_indexed hindexed i hi) h)

end Interner

/-! ### requests of the lowering -/

variable {b b' : Build}

theorem intern_eq (arity : Nat) (b : Build) : intern arity b =
    .ok (b.interner.intern ⟨arity⟩).1 { b with interner := (b.interner.intern ⟨arity⟩).2 } := rfl

theorem intern_ok {arity i : Nat} (h : intern arity b = .ok i b') :
    b.interner.intern ⟨arity⟩ = (i, b'.interner) := by
  rw [intern_eq] at h
  obtain ⟨rfl, rfl⟩ := EStateM.Result.ok.inj h
  rfl

end AnfWasm.Lowering
