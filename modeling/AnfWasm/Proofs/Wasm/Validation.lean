import AnfWasm.Proofs.Wasm.Ops
import AnfWasm.Wasm.Module

/-!
# Validation

Code is valid if the types of its operands fit.  Every value is a word, so a `Checker` only counts
the operands, and it keeps the blocks that are open, each with the number of operands below it.  No
instruction takes operands from below its block, and a block leaves one word when it ends.  After
`unreachable` nothing is known of the operands of the block: what is missing counts as being there.

`Checker.Holds blocks kind base n s` says that in the innermost block, which starts at `base`, there
are `n` words as far as that is known; instructions take and leave words of that number whether
they can be reached or not.
-/

namespace AnfWasm.Wasm

namespace Module

/-- The type of a function by its index; imports come first. -/
def funcType? (m : Module) (index : Nat) : Option FuncType :=
  (m.imports.map (·.typeIndex) ++ m.functions.map (·.typeIndex))[index]? >>= fun i => m.types[i]?

theorem funcType?_import {m : Module} {j : Nat} {d : ImportDef} (h : m.imports[j]? = some d) :
    m.funcType? j = m.types[d.typeIndex]? := by
  have hj : j < m.imports.length := (List.getElem?_eq_some_iff.mp h).1
  rw [funcType?, List.getElem?_append_left (by rwa [List.length_map]), List.getElem?_map, h]
  rfl

theorem funcType?_function {m : Module} {j : Nat} {d : FuncDef} (h : m.functions[j]? = some d) :
    m.funcType? (m.imports.length + j) = m.types[d.typeIndex]? := by
  rw [funcType?, List.getElem?_append_right (by rw [List.length_map]; omega), List.length_map,
    Nat.add_sub_cancel_left, List.getElem?_map, h]
  rfl

/-- The types that imports and functions name are those of their arities. -/
structure Typed (m : Module) : Prop where
  imports : ∀ d ∈ m.imports, m.types[d.typeIndex]? = some ⟨d.arity.toNat⟩
  functions : ∀ d ∈ m.functions, m.types[d.typeIndex]? = some ⟨d.arity⟩

theorem mem_exportsFrom {index i : Nat} {fs : List FuncDef} {f : FuncDef} {name : String} :
    (i, f, name) ∈ exportsFrom index fs ↔
      ∃ j, fs[j]? = some f ∧ f.exportName = some name ∧ i = index + j := by
  induction fs generalizing index with
  | nil => simp [exportsFrom]
  | cons g fs ih =>
    have hrest : (i, f, name) ∈ exportsFrom (index + 1) fs ↔
        ∃ j, (g :: fs)[j + 1]? = some f ∧ f.exportName = some name ∧ i = index + (j + 1) := by
      rw [ih]
      simp only [List.getElem?_cons_succ, Nat.add_assoc, Nat.add_comm 1]
    rw [exportsFrom, ← Nat.or_exists_add_one, ← hrest, List.getElem?_cons_zero, Option.some.injEq]
    cases hg : g.exportName with
    | none =>
      refine (or_iff_right ?_).symm
      rintro ⟨rfl, hf, -⟩
      exact absurd (hg.symm.trans hf) (by simp)
    | some name' =>
      refine List.mem_cons.trans (or_congr_left ⟨?_, ?_⟩)
      · rintro ⟨⟩
        exact ⟨rfl, hg, rfl⟩
      · rintro ⟨rfl, hf, rfl⟩
        rw [Option.some.inj (hg.symm.trans hf)]

theorem index_lt_of_mem_exportsFrom {index : Nat} {fs : List FuncDef} {e : Nat × FuncDef × String}
    (h : e ∈ exportsFrom index fs) : e.1 < index + fs.length := by
  obtain ⟨i, f, name⟩ := e
  obtain ⟨j, hj, -, rfl⟩ := mem_exportsFrom.mp h
  exact Nat.add_lt_add_left (List.getElem?_eq_some_iff.mp hj).1 index

end Module

namespace Validation

/-- What code may refer to.  There is one memory, and all globals are words that can be set. -/
structure Context where
  /-- the number of locals, parameters included -/
  locals : Nat
  globals : Nat
  funcType? : Nat → Option FuncType

inductive BlockKind where
  | func
  | thenBlock
  | elseBlock
deriving DecidableEq

/-- A block that is open. -/
structure Block where
  kind : BlockKind
  /-- the number of operands below it -/
  base : Nat
  /-- the rest of it cannot be reached -/
  unreachable : Bool
deriving DecidableEq

structure Checker where
  operands : Nat
  /-- the innermost one first -/
  blocks : List Block
deriving DecidableEq

namespace Checker

def push (s : Checker) : Checker := { s with operands := s.operands + 1 }

/-- the operands of the innermost block are all that can be taken -/
def pop (s : Checker) : Option Checker :=
  match s.blocks with
  | [] => none
  | b :: _ =>
    if s.operands ≠ b.base then some { s with operands := s.operands - 1 }
    else if b.unreachable then some s
    else none

def popMany : Nat → Checker → Option Checker
  | 0, s => some s
  | n + 1, s => s.pop >>= popMany n

/-- takes words and leaves one -/
def apply (count : Nat) (s : Checker) : Option Checker := (s.popMany count).map push

def enter (kind : BlockKind) (s : Checker) : Checker :=
  { s with blocks := ⟨kind, s.operands, false⟩ :: s.blocks }

/-- the end of the innermost block, which leaves one word and nothing else -/
def leave (s : Checker) : Option (BlockKind × Checker) := do
  let s ← s.pop
  match s.blocks with
  | [] => none
  | b :: outer => if s.operands = b.base then some (b.kind, { s with blocks := outer }) else none

def giveUp (s : Checker) : Option Checker :=
  match s.blocks with
  | [] => none
  | b :: outer => some ⟨b.base, { b with unreachable := true } :: outer⟩

def step (ctx : Context) (s : Checker) : Op → Option Checker
  | .unreachable => s.giveUp
  | .drop => s.pop
  | .localGet i => if i < ctx.locals then some s.push else none
  | .localSet i => if i < ctx.locals then s.pop else none
  | .globalGet i => if i < ctx.globals then some s.push else none
  | .globalSet i => if i < ctx.globals then s.pop else none
  | .load _ => s.apply 1
  | .store _ => s.popMany 2
  | .const _ => some s.push
  | .eqz => s.apply 1
  | .binary _ => s.apply 2
  | .call i => ctx.funcType? i >>= fun t => s.apply t.arity
  | .branch => s.pop.map (enter .thenBlock)
  | .otherwise => s.leave >>= fun (kind, s) =>
    if kind = .thenBlock then some (s.enter .elseBlock) else none
  -- a first block cannot be the last one: there has to be a word in the other case, too
  | .close => s.leave >>= fun (kind, s) => if kind = .thenBlock then none else some s.push

def run (ctx : Context) (s : Checker) (ops : List Op) : Option Checker := ops.foldlM (step ctx) s

/-- the body of a function is open -/
def start : Checker := ⟨0, [⟨.func, 0, false⟩]⟩

end Checker

end Validation

namespace Module

open Validation

def context (m : Module) (locals : Nat) : Context where
  locals
  globals := 1
  funcType? := m.funcType?

/-- The code of a function leaves one word and all blocks are closed after it. -/
def validates (m : Module) (f : FuncDef) : Bool :=
  match m.types[f.typeIndex]? with
  | none => false
  | some t => Checker.run (m.context (t.arity + f.locals)) .start (Op.ofCode f.code ++ [.close])
      = some ⟨1, []⟩

/-- Just before each call, as many words are pushed as the function takes that it names. -/
def CallsFit (m : Module) (ops : List Op) : Prop :=
  ∀ before i after, ops = before ++ .call i :: after → m.funcType? i = some ⟨Op.pushed before⟩

end Module

namespace Validation.Checker

variable {ctx : Context} {outer : List Block} {kind : BlockKind} {base n : Nat} {s : Checker}

/-- In the innermost block there are `n` words, as far as that is known. -/
structure Holds (outer : List Block) (kind : BlockKind) (base n : Nat) (s : Checker) : Prop where
  blocks : ∃ u, s.blocks = ⟨kind, base, u⟩ :: outer ∧ (u = false → s.operands = base + n)
  above : base ≤ s.operands
  most : s.operands ≤ base + n

theorem Holds.push (h : Holds outer kind base n s) : Holds outer kind base (n + 1) s.push := by
  obtain ⟨⟨u, hs, hu⟩, ha, hm⟩ := h
  refine ⟨⟨u, hs, fun e => ?_⟩, Nat.le_succ_of_le ha, Nat.succ_le_succ hm⟩
  show s.operands + 1 = base + (n + 1)
  rw [hu e, Nat.add_assoc]

theorem Holds.pop (h : Holds outer kind base (n + 1) s) :
    ∃ s', s.pop = some s' ∧ Holds outer kind base n s' := by
  obtain ⟨⟨u, hs, hu⟩, ha, hm⟩ := h
  unfold Checker.pop
  rw [hs]
  by_cases hb : s.operands = base
  · -- nothing is left, so the block cannot be reached any more
    have hu' : u = true := by
      cases u with
      | true => rfl
      | false => have := hu rfl; omega
    subst hu'
    exact ⟨s, by simp [hb], ⟨true, hs, by simp⟩, ha, by omega⟩
  · refine ⟨_, if_pos hb, ⟨u, rfl, fun e => ?_⟩, ?_, ?_⟩
    · have := hu e
      show s.operands - 1 = base + n
      omega
    · show base ≤ s.operands - 1
      omega
    · show s.operands - 1 ≤ base + n
      omega

theorem Holds.popMany (k : Nat) (h : Holds outer kind base (n + k) s) :
    ∃ s', s.popMany k = some s' ∧ Holds outer kind base n s' := by
  induction k generalizing s with
  | zero => exact ⟨s, rfl, h⟩
  | succ k ih =>
    obtain ⟨s₁, h1, hs₁⟩ := Holds.pop (n := n + k) h
    obtain ⟨s₂, h2, hs₂⟩ := ih hs₁
    refine ⟨s₂, ?_, hs₂⟩
    show s.pop >>= Checker.popMany k = _
    rw [h1]
    exact h2

theorem Holds.apply (k : Nat) (h : Holds outer kind base (n + k) s) :
    ∃ s', s.apply k = some s' ∧ Holds outer kind base (n + 1) s' := by
  obtain ⟨s', h1, hs'⟩ := h.popMany
  exact ⟨s'.push, by rw [Checker.apply, h1]; rfl, hs'.push⟩

/-- after `unreachable` there is whatever is asked for -/
theorem Holds.giveUp (h : Holds outer kind base n s) (k : Nat) :
    ∃ s', s.giveUp = some s' ∧ Holds outer kind base k s' := by
  obtain ⟨⟨u, hs, -⟩, -, -⟩ := h
  unfold Checker.giveUp
  rw [hs]
  exact ⟨_, rfl, ⟨true, rfl, by simp⟩, Nat.le_refl _, Nat.le_add_right _ _⟩

theorem holds_enter (s : Checker) (kind : BlockKind) :
    Holds s.blocks kind s.operands 0 (s.enter kind) :=
  ⟨⟨false, rfl, fun _ => rfl⟩, Nat.le_refl _, Nat.le_refl _⟩

/-- a block that leaves one word gives back the operands below it -/
theorem Holds.leave (h : Holds outer kind base 1 s) : s.leave = some (kind, ⟨base, outer⟩) := by
  obtain ⟨s', h1, ⟨u, hs, -⟩, ha, hm⟩ := Holds.pop (n := 0) h
  have hb : s'.operands = base := Nat.le_antisymm hm ha
  simp [Checker.leave, h1, hs, hb]

/-! ### runs -/

theorem run_append (s : Checker) (a b : List Op) :
    run ctx s (a ++ b) = run ctx s a >>= fun s' => run ctx s' b :=
  List.foldlM_append

theorem run_cons (s : Checker) (op : Op) (ops : List Op) :
    run ctx s (op :: ops) = step ctx s op >>= fun s' => run ctx s' ops :=
  List.foldlM_cons

/-- In any block the code takes `n` words and leaves `k`. -/
def Takes (ctx : Context) (n k : Nat) (ops : List Op) : Prop :=
  ∀ outer kind base below s, Holds outer kind base (below + n) s →
    ∃ s', run ctx s ops = some s' ∧ Holds outer kind base (below + k) s'

namespace Takes
variable {k l : Nat} {a b : List Op}

theorem nil : Takes ctx n n [] := fun _ _ _ _ s h => ⟨s, rfl, h⟩

theorem append (ha : Takes ctx n k a) (hb : Takes ctx k l b) : Takes ctx n l (a ++ b) := by
  intro outer kind base below s h
  obtain ⟨s₁, h1, hs₁⟩ := ha outer kind base below s h
  obtain ⟨s₂, h2, hs₂⟩ := hb outer kind base below s₁ hs₁
  refine ⟨s₂, ?_, hs₂⟩
  rw [run_append, h1]
  exact h2

/-- more words may be there than the code takes -/
theorem below (j : Nat) (ha : Takes ctx n k a) : Takes ctx (j + n) (j + k) a := by
  intro outer kind base below s h
  rw [← Nat.add_assoc] at h ⊢
  exact ha outer kind base (below + j) s h

theorem step {op : Op} (h : ∀ outer kind base below s, Holds outer kind base (below + n) s →
    ∃ s', step ctx s op = some s' ∧ Holds outer kind base (below + k) s') :
    Takes ctx n k [op] := by
  intro outer kind base below s hs
  obtain ⟨s', h1, hs'⟩ := h outer kind base below s hs
  refine ⟨s', ?_, hs'⟩
  rw [run_cons, h1]
  rfl

theorem const (v : Int32) : Takes ctx 0 1 [.const v] :=
  .step fun _ _ _ _ _ h => ⟨_, rfl, h.push⟩

theorem localGet {i : Nat} (hi : i < ctx.locals) : Takes ctx 0 1 [.localGet i] :=
  .step fun _ _ _ _ _ h => ⟨_, if_pos hi, h.push⟩

theorem localSet {i : Nat} (hi : i < ctx.locals) : Takes ctx 1 0 [.localSet i] := by
  refine .step fun _ _ _ _ s h => ?_
  obtain ⟨s', h1, hs'⟩ := h.pop
  exact ⟨s', (if_pos hi).trans h1, hs'⟩

theorem globalGet {i : Nat} (hi : i < ctx.globals) : Takes ctx 0 1 [.globalGet i] :=
  .step fun _ _ _ _ _ h => ⟨_, if_pos hi, h.push⟩

theorem globalSet {i : Nat} (hi : i < ctx.globals) : Takes ctx 1 0 [.globalSet i] := by
  refine .step fun _ _ _ _ s h => ?_
  obtain ⟨s', h1, hs'⟩ := h.pop
  exact ⟨s', (if_pos hi).trans h1, hs'⟩

theorem drop : Takes ctx 1 0 [.drop] := .step fun _ _ _ _ _ h => h.pop

theorem unreachable (n k : Nat) : Takes ctx n k [.unreachable] :=
  .step fun _ _ _ _ _ h => h.giveUp _

theorem store (offset : Nat) : Takes ctx 2 0 [.store offset] :=
  .step fun _ _ _ _ _ h => h.popMany 2

theorem load (offset : Nat) : Takes ctx 1 1 [.load offset] :=
  .step fun _ _ _ _ _ h => h.apply 1

theorem eqz : Takes ctx 1 1 [.eqz] := .step fun _ _ _ _ _ h => h.apply 1

theorem binary (op : BinOp) : Takes ctx 2 1 [.binary op] := .step fun _ _ _ _ _ h => h.apply 2

theorem call {i arity : Nat} (hi : ctx.funcType? i = some ⟨arity⟩) :
    Takes ctx arity 1 [.call i] := by
  refine .step fun _ _ _ _ s h => ?_
  obtain ⟨s', h1, hs'⟩ := h.apply arity
  refine ⟨s', ?_, hs'⟩
  show (ctx.funcType? i >>= fun t => s.apply t.arity) = _
  rw [hi]
  exact h1

/-- The condition is taken from the block around the branch, and each of the two blocks starts
with nothing and leaves the word that the branch leaves. -/
theorem branch (ha : Takes ctx 0 1 a) (hb : Takes ctx 0 1 b) :
    Takes ctx 1 1 (.branch :: a ++ .otherwise :: b ++ [.close]) := by
  intro outer kind base below s h
  obtain ⟨s₁, h1, hs₁⟩ := h.pop
  obtain ⟨s₂, h2, hs₂⟩ := ha _ _ _ 0 _ (holds_enter s₁ .thenBlock)
  obtain ⟨s₃, h3, hs₃⟩ := hb _ _ _ 0 _ (holds_enter s₁ .elseBlock)
  refine ⟨s₁.push, ?_, hs₁.push⟩
  have hbranch : Checker.step ctx s .branch = some (s₁.enter .thenBlock) := by
    simp [Checker.step, h1]
  have hotherwise : Checker.step ctx s₂ .otherwise = some (s₁.enter .elseBlock) := by
    simp [Checker.step, hs₂.leave]
  have hclose : Checker.step ctx s₃ .close = some s₁.push := by
    simp [Checker.step, hs₃.leave]
  simp only [List.cons_append, List.append_assoc, run_cons, run_append, hbranch, h2, hotherwise,
    h3, hclose, Option.bind_eq_bind, Option.bind_some]
  rfl

/-- the whole body of a function -/
theorem run_body (ha : Takes ctx 0 1 a) : run ctx .start (a ++ [.close]) = some ⟨1, []⟩ := by
  have hstart : Holds [] .func 0 (0 + 0) .start :=
    ⟨⟨false, rfl, fun _ => rfl⟩, Nat.le_refl _, Nat.le_refl _⟩
  obtain ⟨s, h1, hs⟩ := ha _ _ _ 0 _ hstart
  have hclose : Checker.step ctx s .close = some ⟨1, []⟩ := by
    simp [Checker.step, hs.leave, Checker.push]
  rw [run_append, h1]
  show run ctx s [.close] = _
  rw [run_cons, hclose]
  rfl

end Takes

/-! ### what valid code refers to -/

/-- what the instruction refers to is there -/
def Refers (ctx : Context) : Op → Prop
  | .localGet i | .localSet i => i < ctx.locals
  | .globalGet i | .globalSet i => i < ctx.globals
  | .call i => (ctx.funcType? i).isSome
  | _ => True

theorem refers_of_step {s' : Checker} {op : Op} (h : step ctx s op = some s') : Refers ctx op := by
  cases op with
  | localGet i | localSet i | globalGet i | globalSet i =>
    exact (Option.ite_none_right_eq_some.mp h).1
  | call i =>
    show (ctx.funcType? i).isSome
    cases hi : ctx.funcType? i with
    | some t => rfl
    | none =>
      rw [step, hi] at h
      exact absurd h (by simp)
  | _ => trivial

theorem refers_of_run {s' : Checker} {ops : List Op} (h : run ctx s ops = some s') :
    ∀ op ∈ ops, Refers ctx op := by
  induction ops generalizing s with
  | nil => exact fun op hop => absurd hop List.not_mem_nil
  | cons op ops ih =>
    rw [run_cons] at h
    obtain ⟨s₁, h1, h2⟩ := Option.bind_eq_some_iff.mp h
    intro op' hop'
    rcases List.mem_cons.mp hop' with rfl | hop'
    · exact refers_of_step h1
    · exact ih h2 op' hop'

end Validation.Checker

theorem Module.refers_of_validates {m : Module} {f : FuncDef} (h : m.validates f = true)
    (ht : m.types[f.typeIndex]? = some ⟨f.arity⟩) :
    ∀ op ∈ Op.ofCode f.code, Validation.Checker.Refers (m.context (f.arity + f.locals)) op := by
  unfold Module.validates at h
  rw [ht] at h
  have hrun := Validation.Checker.refers_of_run (of_decide_eq_true h)
  exact fun op hop => hrun op (List.mem_append_left _ hop)

end AnfWasm.Wasm
