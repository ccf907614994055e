/-!
# Tables

A table is a sequence whose positions are told by an index type of its own, so that the positions
of two tables are not mixed up.  An index type may be narrower than the numbers that it is made
from; it then keeps the low bits.
-/

namespace AnfWasm

class Index (ι : Type) where
  ofNat : Nat → ι
  toNat : ι → Nat

instance : Index Nat := ⟨id, id⟩

instance : Index UInt32 := ⟨UInt32.ofNat, UInt32.toNat⟩

instance : Index UInt64 := ⟨UInt64.ofNat, UInt64.toNat⟩

/-- A position that a table does not have. -/
structure OutOfBounds where
  size : Nat
  index : Nat
deriving DecidableEq

def OutOfBounds.message (e : OutOfBounds) : String :=
  "index out of bounds: the len is " ++ e.size.repr ++ " but the index is " ++ e.index.repr

structure Table (ι α : Type) where
  toList : List α

namespace Table

variable {ι α : Type}

instance [DecidableEq α] : DecidableEq (Table ι α) := fun s t =>
  decidable_of_iff (s.toList = t.toList)
    ⟨fun h => by cases s; cases t; exact congrArg mk h, congrArg toList⟩

variable [Index ι]

def ofList (items : List α) : Table ι α := ⟨items⟩

def size (t : Table ι α) : Nat := t.toList.length

/-- the index that the next item gets -/
def next (t : Table ι α) : ι := Index.ofNat t.size

def push (t : Table ι α) (a : α) : ι × Table ι α := (t.next, ⟨t.toList ++ [a]⟩)

def get (t : Table ι α) (i : ι) : Except OutOfBounds α :=
  match t.toList[Index.toNat i]? with
  | some a => .ok a
  | none => .error ⟨t.size, Index.toNat i⟩

def set (t : Table ι α) (i : ι) (a : α) : Except OutOfBounds (Table ι α) :=
  if Index.toNat i < t.size then .ok ⟨t.toList.set (Index.toNat i) a⟩
  else .error ⟨t.size, Index.toNat i⟩

end Table

end AnfWasm
