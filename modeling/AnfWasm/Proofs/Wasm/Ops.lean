import AnfWasm.Wasm.Instr
import Mathlib.Data.List.TakeWhile

/-!
# Flat code

In a module a branch is spread over three instructions: one that opens its first block, one that
goes on to the second, and one that closes it.  `Op` is an instruction of such a list, and
`Op.ofCode` is the list of structured code.  `Code.paths` are the ways through it, each of which
takes one block of every branch that it meets.
-/

namespace AnfWasm.Wasm

inductive Op where
  | unreachable
  | drop
  | localGet (index : Nat)
  | localSet (index : Nat)
  | globalGet (index : Nat)
  | globalSet (index : Nat)
  | load (offset : Nat)
  | store (offset : Nat)
  | const (value : Int32)
  | eqz
  | binary (op : BinOp)
  | call (index : Nat)
  /-- opens a branch whose blocks leave one word -/
  | branch
  /-- goes on to the second block -/
  | otherwise
  /-- closes a branch or the body of a function -/
  | close
deriving DecidableEq

namespace Op

mutual

def ofInstr : Instr → List Op
  | .unreachable => [.unreachable]
  | .drop => [.drop]
  | .localGet i => [.localGet i]
  | .localSet i => [.localSet i]
  | .globalGet i => [.globalGet i]
  | .globalSet i => [.globalSet i]
  | .load offset => [.load offset]
  | .store offset => [.store offset]
  | .const n => [.const n]
  | .eqz => [.eqz]
  | .binary op => [.binary op]
  | .call i => [.call i]
  | .ifElse thenCode elseCode =>
    .branch :: ofCode thenCode ++ .otherwise :: ofCode elseCode ++ [.close]

def ofCode : Code → List Op
  | [] => []
  | i :: is => ofInstr i ++ ofCode is

end

theorem ofCode_nil : ofCode [] = [] := rfl

theorem ofCode_cons (i : Instr) (is : Code) : ofCode (i :: is) = ofInstr i ++ ofCode is := rfl

theorem ofCode_append (a b : Code) : ofCode (a ++ b) = ofCode a ++ ofCode b := by
  induction a with
  | nil => rfl
  | cons i is ih => rw [List.cons_append, ofCode_cons, ofCode_cons, ih, List.append_assoc]

theorem ofCode_singleton (i : Instr) : ofCode [i] = ofInstr i := List.append_nil _

theorem ofInstr_ifElse (thenCode elseCode : Code) : ofInstr (.ifElse thenCode elseCode) =
    .branch :: ofCode thenCode ++ .otherwise :: ofCode elseCode ++ [.close] := rfl

/-- the offset of an access to memory -/
def offset? : Op → Option Nat
  | .load offset | .store offset => some offset
  | _ => none

/-- takes nothing and leaves a word -/
def isPush : Op → Bool
  | .localGet _ | .globalGet _ | .const _ => true
  | _ => false

/-- how many words were pushed just before the end of a list -/
def pushed (ops : List Op) : Nat := (ops.reverse.takeWhile isPush).length

theorem pushed_of_all {ops : List Op} (h : ∀ op ∈ ops, op.isPush) : pushed ops = ops.length := by
  have hall : ∀ op ∈ ops.reverse, op.isPush := fun op hop => h op (List.mem_reverse.mp hop)
  rw [pushed, List.takeWhile_eq_self_iff.mpr hall, List.length_reverse]

/-- what stands before an instruction that pushes nothing does not count -/
theorem pushed_append_cons {op : Op} (hop : op.isPush = false) (a b : List Op) :
    pushed (a ++ op :: b) = pushed b := by
  rw [pushed, pushed, List.reverse_append, List.reverse_cons, List.append_assoc]
  rw [List.singleton_append, List.takeWhile_append]
  split
  · rename_i hall
    rw [List.takeWhile_cons_of_neg (by simp [hop]), List.append_nil, hall]
  · rfl

end Op

/-! ### control paths -/

mutual

def Instr.paths : Instr → List (List Op)
  | .ifElse thenCode elseCode => (Code.paths thenCode ++ Code.paths elseCode).map (.branch :: ·)
  | i => [Op.ofInstr i]

/-- What is executed of code, for every choice of blocks.  A run that traps leaves its path. -/
def Code.paths : Code → List (List Op)
  | [] => [[]]
  | i :: is => (Instr.paths i).flatMap fun first => (Code.paths is).map (first ++ ·)

end

namespace Code

variable {path : List Op} {a b code thenCode elseCode : Code} {i : Instr}

theorem mem_paths_cons : path ∈ paths (i :: code) ↔
    ∃ x ∈ Instr.paths i, ∃ y ∈ paths code, path = x ++ y := by
  rw [paths, List.mem_flatMap]
  simp only [List.mem_map, eq_comm (b := path)]

theorem paths_singleton (i : Instr) : paths [i] = Instr.paths i := by
  rw [paths]
  simp [paths]

theorem mem_paths_append : path ∈ paths (a ++ b) ↔
    ∃ x ∈ paths a, ∃ y ∈ paths b, path = x ++ y := by
  induction a generalizing path with
  | nil => simp [paths]
  | cons i is ih =>
    simp only [List.cons_append, mem_paths_cons, ih]
    constructor
    · rintro ⟨x, hx, _, ⟨y, hy, z, hz, rfl⟩, rfl⟩
      exact ⟨x ++ y, ⟨x, hx, y, hy, rfl⟩, z, hz, (List.append_assoc x y z).symm⟩
    · rintro ⟨_, ⟨x, hx, y, hy, rfl⟩, z, hz, rfl⟩
      exact ⟨x, hx, y ++ z, ⟨y, hy, z, hz, rfl⟩, List.append_assoc x y z⟩

theorem mem_paths_branch : path ∈ Instr.paths (.ifElse thenCode elseCode) ↔
    ∃ x, (x ∈ paths thenCode ∨ x ∈ paths elseCode) ∧ path = .branch :: x := by
  rw [Instr.paths, List.mem_map]
  simp only [List.mem_append, eq_comm (b := path)]

end Code

mutual

theorem Instr.sublist_of_mem_paths (i : Instr) {path : List Op} (h : path ∈ i.paths) :
    path.Sublist (Op.ofInstr i) := by
  match i with
  | .ifElse thenCode elseCode =>
    obtain ⟨x, hx, rfl⟩ := Code.mem_paths_branch.mp h
    rw [Op.ofInstr_ifElse, List.cons_append, List.cons_append, List.append_assoc]
    refine List.Sublist.cons_cons _ ?_
    rcases hx with hx | hx
    · exact (Code.sublist_of_mem_paths thenCode hx).trans (List.sublist_append_left _ _)
    · have hx := Code.sublist_of_mem_paths elseCode hx
      exact ((hx.trans (List.sublist_append_left _ _)).cons _).trans (List.sublist_append_right _ _)
  | .unreachable | .drop | .localGet _ | .localSet _ | .globalGet _ | .globalSet _ | .load _
  | .store _ | .const _ | .eqz | .binary _ | .call _ =>
    obtain rfl := List.mem_singleton.mp h
    exact List.Sublist.refl _

/-- a path leaves out blocks and keeps the order of the rest -/
theorem Code.sublist_of_mem_paths (code : Code) {path : List Op} (h : path ∈ Code.paths code) :
    path.Sublist (Op.ofCode code) := by
  match code with
  | [] => exact List.mem_singleton.mp h ▸ List.Sublist.refl []
  | i :: is =>
    obtain ⟨x, hx, y, hy, rfl⟩ := Code.mem_paths_cons.mp h
    exact (Instr.sublist_of_mem_paths i hx).append (Code.sublist_of_mem_paths is hy)

end

end AnfWasm.Wasm
