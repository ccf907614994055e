import AnfWasm.Data.Arena
import AnfWasm.Data.Table
import AnfWasm.Wasm.Module

/-!
# Interned function types

The types that a module uses are kept in an arena, in the order of their first use, and a map leads
from each of them to its index.
-/

namespace AnfWasm.Lowering

open Wasm

structure Interner (ι : Type) where
  /-- the index of each type, the latest one first -/
  map : List (FuncType × ι)
  arena : Arena FuncType

namespace Interner

variable {ι : Type}

def empty : Interner ι := ⟨[], .empty⟩

/-- the types in the order in which they were added -/
def types (n : Interner ι) : List FuncType := n.arena.toList

/-- the index of a type, which is allocated if it is new -/
def intern [Index ι] (n : Interner ι) (t : FuncType) : ι × Interner ι :=
  match n.map.lookup t with
  | some i => (i, n)
  | none =>
    let i := Index.ofNat n.arena.size
    (i, ⟨(t, i) :: n.map, (n.arena.alloc t).2⟩)

end Interner

end AnfWasm.Lowering
