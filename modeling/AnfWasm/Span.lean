import AnfWasm.Json.Record

/-!
# Positions in a source file

Lines and columns are counted from zero and shown from one.
-/

namespace AnfWasm

structure Loc where
  line : UInt32
  column : UInt32
deriving DecidableEq, Inhabited

structure Span where
  start : Loc
  stop : Loc
deriving DecidableEq, Inhabited

namespace Loc

/-- the first position of a file -/
def origin : Loc := ⟨0, 0⟩

/-- by line, then by column -/
def compare (a b : Loc) : Ordering :=
  (Ord.compare a.line b.line).then (Ord.compare a.column b.column)

/-- one more than `n`, which has to be a 32-bit number again -/
def fromOne? (n : UInt32) : Option Nat :=
  if n.toNat + 1 < UInt32.size then some (n.toNat + 1) else none

/-- `line:column`, or `none` if a number leaves the 32-bit range when counted from one -/
def text? (l : Loc) : Option String := do
  let line ← fromOne? l.line
  let column ← fromOne? l.column
  return line.repr ++ ":" ++ column.repr

def toJson (l : Loc) : Json :=
  .obj [("line", .ofNat l.line.toNat), ("column", .ofNat l.column.toNat)]

def ofJson? : Nat → Json → Option Loc
  | _ + 1, j => do
    let [some line, some column] ← j.record ["line", "column"] | none
    return ⟨← line.uint32?, ← column.uint32?⟩
  | 0, _ => none

end Loc

namespace Span

def isEmpty (s : Span) : Bool := s.start = s.stop

/-- `start-end` -/
def text? (s : Span) : Option String := do
  let start ← s.start.text?
  let stop ← s.stop.text?
  return start ++ "-" ++ stop

def toJson (s : Span) : Json :=
  .obj [("start", s.start.toJson), ("end", s.stop.toJson)]

def ofJson? : Nat → Json → Option Span
  | n + 1, j => do
    let [some start, some stop] ← j.record ["start", "end"] | none
    return ⟨← Loc.ofJson? n start, ← Loc.ofJson? n stop⟩
  | 0, _ => none

end Span

end AnfWasm
