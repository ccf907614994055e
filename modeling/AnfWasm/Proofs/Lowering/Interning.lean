import AnfWasm.Proofs.Lowering.Parts
import Mathlib.Data.List.Perm.Subperm

/-!
# Interned types

While a program is lowered the types of its imports are asked for one after the other, then those of
its functions, and the one of the entry, which takes no arguments (`Program.typesUsed`).  So a
module has each of these types once, in the order of first use, and the indices of its imports and
functions are the answers to these requests (`lower_interns`).
-/

namespace AnfWasm

namespace Lowering

open Wasm

variable {p : Program} {m : Module}

/-- distinct numbers below a bound are not more than that -/
theorem length_le_of_nodup {ns : List Nat} {bound : Nat} (hd : ns.Nodup)
    (hlt : ∀ n ∈ ns, n < bound) : ns.length ≤ bound := by
  have hsub : ns ⊆ List.range bound := fun n hn => List.mem_range.mpr (hlt n hn)
  have hle := (hd.subperm hsub).length_le
  rwa [List.length_range] at hle

theorem FirstUses.length_le {used types : List FuncType} (h : FirstUses used types) {bound : Nat}
    (hlt : ∀ t ∈ used, t.arity < bound) : types.length ≤ bound := by
  have hd : (types.map FuncType.arity).Nodup :=
    List.Pairwise.map _ (fun t u hne heq => hne (congrArg FuncType.mk heq)) h.nodup
  rw [← List.length_map FuncType.arity]
  refine length_le_of_nodup hd fun n hn => ?_
  obtain ⟨t, ht, rfl⟩ := List.mem_map.mp hn
  exact hlt t ((h.mem t).mp ht)

theorem arity_lt_of_typesUsed (h : ∀ f ∈ p.functions, f.params.length < 2 ^ 32) :
    ∀ t ∈ p.typesUsed, t.arity < 2 ^ 32 := by
  intro t ht
  rw [Program.typesUsed, Program.functionTypes, List.mem_append, List.mem_append] at ht
  rcases ht with ht | ht | ht
  · obtain ⟨i, -, rfl⟩ := List.mem_map.mp ht
    exact i.arity.toNat_lt
  · obtain ⟨f, hf, rfl⟩ := List.mem_map.mp ht
    exact h f hf
  · rw [List.mem_singleton.mp ht]
    decide

theorem lower_firstUses (h : p.lower.1 = .ok m) : FirstUses p.typesUsed m.types := by
  rw [← (lower_interner h).2]
  exact Interner.inStep_empty.firstUses_internAll .nil p.typesUsed

/-- **Types are interned.**  A module has each type that the program uses once, in the order of
first use, and each import and function leads to the type of its own arity.

Whatever types are asked for, and whatever the indices are, the map and the arena are in step after
it, the arena has each type once in the order of first use, and all indices that were given out lead
to their types.

With indices of 32 bits the answers are the same, as long as no function has `2 ^ 32` parameters. -/
theorem lower_interns (h : p.lower.1 = .ok m) :
    (FirstUses p.typesUsed m.types ∧ m.types.Nodup ∧
      List.Forall₂ (fun t d => m.types[d.typeIndex]? = some t) (p.imports.map Import.type)
        m.imports ∧
      List.Forall₂ (fun t d => m.types[d.typeIndex]? = some t) p.functionTypes m.functions) ∧
    (∀ (ι : Type) [Index ι] (ts : List FuncType) (is : List ι) (n : Interner ι),
      Interner.empty.internAll ts = (is, n) →
        n.InStep ∧ FirstUses ts n.types ∧ List.Forall₂ n.Indexed ts is) ∧
    ((∀ f ∈ p.functions, f.params.length < 2 ^ 32) →
      ((Interner.empty : Interner UInt32).internAll p.typesUsed).1.map UInt32.toNat =
        m.typeIndices) := by
  have hfirst := lower_firstUses h
  refine ⟨⟨hfirst, hfirst.nodup, ?_⟩, fun ι _ ts is n hn => ?_, fun hparams => ?_⟩
  · obtain ⟨cs, hl⟩ := lower_ok h
    obtain ⟨himports, hfunctions⟩ := lower_typed h
    rw [hl.importTypes, hl.functionTypes, List.forall₂_map_left_iff, List.forall₂_map_left_iff,
      List.forall₂_same, List.forall₂_same]
    exact ⟨himports, hfunctions⟩
  · have hstart : (Interner.empty : Interner ι).InStep := Interner.inStep_empty
    obtain ⟨hstep, -, hindexed⟩ := hstart.internAll ts
    have hused := hstart.firstUses_internAll .nil ts
    rw [hn] at hstep hindexed hused
    exact ⟨hstep, hused, hindexed⟩
  · obtain ⟨hindices, htypes⟩ := lower_interner h
    rw [← hindices]
    refine Interner.internAll_uint32 _ ?_
    rw [htypes]
    exact hfirst.length_le (arity_lt_of_typesUsed hparams)

/-- asks for the arities 1, 3, 1, 2, 3 and 0 -/
def switchboard : Program where
  source := none
  imports := [⟨⟨"ring", 0⟩, "env", "ring", 1⟩, ⟨⟨"dial", 1⟩, "env", "dial", 3⟩,
    ⟨⟨"hang", 2⟩, "env", "hang", 1⟩]
  functions := [
    { id := ⟨"join", 3⟩
      params := [⟨"a", 4⟩, ⟨"b", 5⟩]
      body := .comp (.prim2 .add (.id ⟨"a", 4⟩) (.id ⟨"b", 5⟩))
      exported := true
      span := none },
    { id := ⟨"pass", 6⟩
      params := [⟨"c", 7⟩, ⟨"d", 8⟩, ⟨"e", 9⟩]
      body := .comp (.callForeign ⟨"dial", 1⟩ [.id ⟨"c", 7⟩, .id ⟨"d", 8⟩, .id ⟨"e", 9⟩])
      exported := false
      span := none }]
  body := .comp (.callForeign ⟨"ring", 0⟩ [.int 2])

theorem lower_interns_switchboard : ∃ m, switchboard.lower.1 = .ok m ∧
    m.types = [⟨1⟩, ⟨3⟩, ⟨2⟩, ⟨0⟩] ∧ FirstUses [⟨1⟩, ⟨3⟩, ⟨1⟩, ⟨2⟩, ⟨3⟩, ⟨0⟩] m.types ∧
    m.imports.map (·.typeIndex) = [0, 1, 0] ∧ m.functions.map (·.typeIndex) = [2, 1, 3] ∧
    ((Interner.empty : Interner UInt32).internAll switchboard.typesUsed).1.map UInt32.toNat =
      m.typeIndices := by
  obtain ⟨m, hm, htypes, himports, hfunctions⟩ : ∃ m, switchboard.lower.1 = .ok m ∧
      m.types = [⟨1⟩, ⟨3⟩, ⟨2⟩, ⟨0⟩] ∧ m.imports.map (·.typeIndex) = [0, 1, 0] ∧
      m.functions.map (·.typeIndex) = [2, 1, 3] := ⟨_, rfl, rfl, rfl, rfl⟩
  have hparams : ∀ f ∈ switchboard.functions, f.params.length < 2 ^ 32 := by decide
  obtain ⟨⟨hfirst, -⟩, -, hanswers⟩ := lower_interns hm
  exact ⟨m, hm, htypes, hfirst, himports, hfunctions, hanswers hparams⟩

end Lowering

end AnfWasm
