import AnfWasm.Program.Basic

/-!
# Fresh identifiers

A `Supply` hands out identifiers whose stamps count up from zero.  The last stamp is never handed
out, so a supply ends without repeating one.
-/

namespace AnfWasm

structure Supply where
  next : UInt32
deriving Inhabited

namespace Supply

def start : Supply := ⟨0⟩

/-- an identifier with a new stamp, while there is one -/
def fresh? (s : Supply) (name : String) : Option (Ident × Supply) :=
  if s.next.toNat + 1 < UInt32.size then some (⟨name, s.next⟩, ⟨s.next + 1⟩) else none

/-- fresh identifiers for the names in order -/
def freshAll? (s : Supply) : List String → Option (List Ident × Supply)
  | [] => some ([], s)
  | name :: names => do
    let (x, s) ← s.fresh? name
    let (xs, s) ← s.freshAll? names
    return (x :: xs, s)

end Supply

end AnfWasm
