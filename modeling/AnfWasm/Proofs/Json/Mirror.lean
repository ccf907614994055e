import AnfWasm.Json.Record
import Mathlib.Logic.Basic

/-!
# Readers and writers of values

A reader that takes a nesting allowance *mirrors* a writer if it takes what was written exactly
when the allowance is as large as the depth of it (`Mirrors.back`).  A reader may take other forms
of the same data; what it takes in any form needs no larger allowance when it is written again
(`Mirrors.fits`).
-/

namespace AnfWasm

namespace Json

/-! ### depth -/

theorem depthItems_le {js : List Json} {n : Nat} :
    depthItems js ≤ n ↔ ∀ j ∈ js, j.depth ≤ n := by
  induction js with
  | nil => simp [depthItems]
  | cons j js ih => rw [depthItems, Nat.max_le, ih, List.forall_mem_cons]

theorem depthFields_le {fs : List (String × Json)} {n : Nat} :
    depthFields fs ≤ n ↔ ∀ f ∈ fs, f.2.depth ≤ n := by
  induction fs with
  | nil => simp [depthFields]
  | cons f fs ih => rw [depthFields, Nat.max_le, ih, List.forall_mem_cons]

@[simp] theorem depth_null : depth .null = 0 := rfl
@[simp] theorem depth_bool (b : Bool) : (bool b).depth = 0 := rfl
@[simp] theorem depth_int (n : Int) : (int n).depth = 0 := rfl
@[simp] theorem depth_ofNat (n : Nat) : (ofNat n).depth = 0 := rfl
@[simp] theorem depth_str (s : String) : (str s).depth = 0 := rfl

@[simp] theorem depth_arr_le_succ {js : List Json} {n : Nat} :
    (arr js).depth ≤ n + 1 ↔ ∀ j ∈ js, j.depth ≤ n := by
  rw [depth, Nat.add_comm, Nat.add_le_add_iff_right, depthItems_le]

@[simp] theorem depth_obj_le_succ {fs : List (String × Json)} {n : Nat} :
    (obj fs).depth ≤ n + 1 ↔ ∀ f ∈ fs, f.2.depth ≤ n := by
  rw [depth, Nat.add_comm, Nat.add_le_add_iff_right, depthFields_le]

@[simp] theorem depth_arr_ne_zero (js : List Json) : (arr js).depth ≠ 0 := by
  rw [depth]
  omega

@[simp] theorem depth_obj_ne_zero (fs : List (String × Json)) : (obj fs).depth ≠ 0 := by
  rw [depth]
  omega

/-! ### numbers -/

@[simp] theorem uint32?_ofNat (n : UInt32) : (ofNat n.toNat).uint32? = some n := by
  show (if n.toNat < UInt32.size then some (UInt32.ofNat n.toNat) else none) = some n
  rw [if_pos n.toNat_lt, UInt32.ofNat_toNat]

@[simp] theorem int32?_toInt (n : Int32) : (int n.toInt).int32? = some n := by
  have h1 := n.le_toInt
  have h2 := n.toInt_lt
  show (if -2147483648 ≤ n.toInt ∧ n.toInt < 2147483648 then some (Int32.ofInt n.toInt) else none)
    = some n
  rw [if_pos (by omega), Int32.ofInt_toInt]

/-! ### readers and writers -/

@[simp] theorem orElse_some {α : Type} (d : α) (read : Json → Option α) (j : Json) :
    orElse d read (some j) = read j := rfl

theorem ite_bind {α β : Type} {P : Prop} [Decidable P] (a : α) (f : α → Option β) :
    (if P then some a else none).bind f = if P then f a else none := by
  split <;> rfl

/-- `read` takes what `write` gives exactly when the allowance is enough for it, and what it takes
in any form needs no more than that when it is written again. -/
structure Mirrors {α : Type} (write : α → Json) (read : Nat → Json → Option α) : Prop where
  back : ∀ n a, read n (write a) = if (write a).depth ≤ n then some a else none
  fits : ∀ {n j a}, read n j = some a → (write a).depth ≤ n

section
variable {α : Type} {write : α → Json} {read : Nat → Json → Option α}

theorem mapM_map_write {xs : List α} {n : Nat}
    (h : ∀ a ∈ xs, read n (write a) = if (write a).depth ≤ n then some a else none) :
    (xs.map write).mapM (read n) = if ∀ a ∈ xs, (write a).depth ≤ n then some xs else none := by
  induction xs with
  | nil => simp
  | cons a xs ih =>
    obtain ⟨ha, hxs⟩ := List.forall_mem_cons.mp h
    simp [List.mapM_cons, ha, ih hxs, ite_bind, ite_and]

theorem mem_of_mapM {xs : List α} {js : List Json} {n : Nat} (h : js.mapM (read n) = some xs)
    {a : α} (ha : a ∈ xs) : ∃ j ∈ js, read n j = some a := by
  induction js generalizing xs with
  | nil =>
    obtain rfl : [] = xs := Option.some.inj h
    exact absurd ha List.not_mem_nil
  | cons j js ih =>
    rw [List.mapM_cons] at h
    obtain ⟨b, hb, h⟩ := Option.bind_eq_some_iff.mp h
    obtain ⟨bs, hbs, h⟩ := Option.bind_eq_some_iff.mp h
    obtain rfl : b :: bs = xs := Option.some.inj h
    rcases List.mem_cons.mp ha with rfl | ha
    · exact ⟨j, List.mem_cons_self, hb⟩
    · obtain ⟨j', hj', ha'⟩ := ih hbs ha
      exact ⟨j', List.mem_cons_of_mem _ hj', ha'⟩

namespace Mirrors

theorem list_back (h : Mirrors write read) (n : Nat) (xs : List α) :
    (arr (xs.map write)).list read n =
      if (arr (xs.map write)).depth ≤ n then some xs else none := by
  cases n with
  | zero => simp [Json.list]
  | succ n => simp [Json.list, mapM_map_write fun a _ => h.back n a]

theorem list_fits (h : Mirrors write read) {n : Nat} {j : Json} {xs : List α}
    (hr : j.list read n = some xs) : (arr (xs.map write)).depth ≤ n := by
  unfold Json.list at hr
  split at hr
  · rw [depth_arr_le_succ, List.forall_mem_map]
    intro a ha
    obtain ⟨j, -, hj⟩ := mem_of_mapM hr ha
    exact h.fits hj
  · exact absurd hr (by simp)

/-- a list that may be missing is written as an empty one -/
theorem list_fits_of_orElse (h : Mirrors write read) {n : Nat} (hn : n ≠ 0) {f : Option Json}
    {xs : List α} (hr : orElse [] (Json.list read n) f = some xs) :
    (arr (xs.map write)).depth ≤ n := by
  cases f with
  | some j => exact h.list_fits hr
  | none =>
    obtain rfl : [] = xs := Option.some.inj hr
    obtain ⟨m, rfl⟩ := Nat.exists_eq_succ_of_ne_zero hn
    simp

/-- a field that is written only if there is a value -/
theorem optional (h : Mirrors write read) (hnull : ∀ a, write a ≠ .null) (n : Nat) (o : Option α) :
    orElse none (nullable (read n)) (o.map write) =
      if ∀ a ∈ o, (write a).depth ≤ n then some o else none := by
  cases o with
  | none => simp [orElse]
  | some a =>
    have hread : nullable (read n) (write a) = some <$> read n (write a) := by
      unfold nullable
      split
      · rename_i heq
        exact absurd heq (hnull a)
      · rfl
    simp [orElse, hread, h.back]

theorem optional_fits (h : Mirrors write read) {n : Nat} {f : Option Json} {o : Option α}
    (hr : orElse none (nullable (read n)) f = some o) : ∀ a ∈ o, (write a).depth ≤ n := by
  rintro a rfl
  cases f with
  | none => exact absurd hr (by simp [orElse])
  | some j =>
    rw [orElse] at hr
    unfold nullable at hr
    split at hr
    · exact absurd hr (by simp)
    · obtain ⟨b, hb, he⟩ := Option.map_eq_some_iff.mp hr
      obtain rfl : b = a := Option.some.inj he
      exact h.fits hb

end Mirrors

end

end Json

end AnfWasm
