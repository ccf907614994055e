/-!
# Arenas

An arena keeps values for as long as it lives and hands out references to them.  A value can be
changed through its reference and never moves.
-/

namespace AnfWasm

structure Arena (α : Type) where
  toList : List α

namespace Arena

variable {α : Type}

/-- the place of a value in the order of allocation -/
structure Ref where
  place : Nat
deriving DecidableEq

def empty : Arena α := ⟨[]⟩

def size (a : Arena α) : Nat := a.toList.length

def isEmpty (a : Arena α) : Bool := a.size = 0

def alloc (a : Arena α) (x : α) : Ref × Arena α := (⟨a.size⟩, ⟨a.toList ++ [x]⟩)

def get? (a : Arena α) (r : Ref) : Option α := a.toList[r.place]?

def modify (a : Arena α) (r : Ref) (f : α → α) : Arena α := ⟨a.toList.modify r.place f⟩

end Arena

end AnfWasm
