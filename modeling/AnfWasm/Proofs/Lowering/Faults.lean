import AnfWasm.Lowering.Body
import AnfWasm.Proofs.Scope.Mentions

/-!
# The first fault of an expression

Lowering stops at the first recursive group that mentions itself.  `Expr.fault?` is what it reports:
the first group in the order in which expressions are lowered, and in that group the first mention.
There is a fault exactly if some group mentions itself (`Expr.picks_fault?`).
-/

namespace AnfWasm

namespace Lowering

theorem groupMention?_eq_some {bs : List Binding} {x y : Ident}
    (h : groupMention? bs = some (x, y)) : GroupMention bs x y := by
  obtain ⟨b, hb, hfind⟩ := List.exists_of_findSome?_eq_some h
  obtain ⟨z, hz, he⟩ := Option.map_eq_some_iff.mp hfind
  obtain ⟨rfl, rfl⟩ := Prod.mk.inj he
  have hgroup := List.find?_some hz
  refine ⟨b, hb, rfl, Comp.mem_mentions.mp (List.mem_of_find?_eq_some hz), ?_⟩
  rw [stamps, ids, List.map_map]
  exact List.contains_iff_mem.mp hgroup

theorem groupMention?_eq_none {bs : List Binding} (h : groupMention? bs = none) (x y : Ident) :
    ¬GroupMention bs x y := by
  rintro ⟨b, hb, -, hmention, hgroup⟩
  have hb' := List.findSome?_eq_none_iff.mp h b hb
  rw [Option.map_eq_none_iff, List.find?_eq_none] at hb'
  refine hb' y (Comp.mem_mentions.mpr hmention) (List.contains_iff_mem.mpr ?_)
  rwa [stamps, ids, List.map_map] at hgroup

/-- the first mention of the group by itself, if the let is one -/
def groupFault? (kind : LetKind) (bs : List Binding) : Option (Ident × Ident) :=
  match kind with
  | .sequential => none
  | .recursive => groupMention? bs

/-- A fault is one of the pairs, and there is none if there are no pairs. -/
def Picks (C : Ident → Ident → Prop) : Option (Ident × Ident) → Prop
  | some (x, y) => C x y
  | none => ∀ x y, ¬C x y

theorem Picks.or {C C₁ C₂ : Ident → Ident → Prop} {f₁ f₂ : Option (Ident × Ident)}
    (h1 : Picks C₁ f₁) (h2 : Picks C₂ f₂) (hC : ∀ x y, C x y ↔ C₁ x y ∨ C₂ x y) :
    Picks C (f₁.or f₂) := by
  match f₁, f₂ with
  | some (x, y), _ => exact (hC x y).mpr (.inl h1)
  | none, some (x, y) => exact (hC x y).mpr (.inr h2)
  | none, none => exact fun x y hc => ((hC x y).mp hc).elim (h1 x y) (h2 x y)

theorem picks_groupFault? (kind : LetKind) (bs : List Binding) :
    Picks (fun x y => kind = .recursive ∧ GroupMention bs x y) (groupFault? kind bs) := by
  cases kind with
  | sequential => exact fun _ _ h => absurd h.1 (by simp)
  | recursive =>
    show Picks _ (groupMention? bs)
    cases hm : groupMention? bs with
    | none => exact fun x y h => groupMention?_eq_none hm x y h.2
    | some xy => exact ⟨rfl, groupMention?_eq_some hm⟩

end Lowering

open Lowering

mutual

def Comp.fault? : Comp → Option (Ident × Ident)
  | .branch _ thenArm elseArm => thenArm.fault?.or elseArm.fault?
  | _ => none

/-- the first fault inside of the right-hand sides -/
def Binding.fault? : List Binding → Option (Ident × Ident)
  | [] => none
  | ⟨_, comp, _⟩ :: bs => comp.fault?.or (Binding.fault? bs)

def Expr.fault? : Expr → Option (Ident × Ident)
  | .letIn kind bindings body =>
    (groupFault? kind bindings).or ((Binding.fault? bindings).or body.fault?)
  | .seq comp rest => comp.fault?.or rest.fault?
  | .comp comp => comp.fault?

end

theorem Comp.fault?_eq_none {c : Comp} (hc : c.arms = []) : c.fault? = none := by
  cases c with
  | branch => exact absurd hc (List.cons_ne_nil _ _)
  | _ => simp only [Comp.fault?]

mutual

theorem Comp.picks_fault? (c : Comp) : Picks c.Cyclic c.fault? := by
  match c with
  | .branch cond thenArm elseArm =>
    exact thenArm.picks_fault?.or elseArm.picks_fault? fun _ _ => Comp.cyclic_branch
  | .imm _ | .prim1 _ _ | .prim2 _ _ _ | .adt _ _ _ | .tuple _ | .tupleGet _ _ | .boxNew _
  | .unbox _ | .boxSet _ _ | .call _ _ | .callForeign _ _ | .fail _ =>
    exact fun _ _ => Comp.not_cyclic rfl

theorem Binding.picks_fault? (bs : List Binding) :
    Picks (fun x y => ∃ b ∈ bs, b.comp.Cyclic x y) (Binding.fault? bs) := by
  match bs with
  | [] => exact fun _ _ ⟨_, hb, _⟩ => absurd hb List.not_mem_nil
  | ⟨id, comp, span⟩ :: bs =>
    exact comp.picks_fault?.or (Binding.picks_fault? bs) fun _ _ => by simp

theorem Expr.picks_fault? (e : Expr) : Picks e.Cyclic e.fault? := by
  match e with
  | .letIn kind bs body =>
    have hparts := (Binding.picks_fault? bs).or body.picks_fault? fun _ _ => Iff.rfl
    exact (picks_groupFault? kind bs).or hparts fun _ _ => Expr.cyclic_let
  | .seq comp rest =>
    exact comp.picks_fault?.or rest.picks_fault? fun _ _ => Expr.cyclic_seq
  | .comp comp =>
    have hsame : (Expr.comp comp).Cyclic = comp.Cyclic := by
      funext x y
      exact propext Expr.cyclic_comp
    rw [hsame]
    exact comp.picks_fault?

end

end AnfWasm
