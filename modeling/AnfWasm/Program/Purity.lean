import AnfWasm.Program.Basic

/-!
# Purity

What evaluating a computation can do besides giving its value, told from its kind alone.  A
division can trap, a read of a cell depends on the writes before it, and calls and branches are not
looked into.
-/

namespace AnfWasm

inductive Purity where
  | pure
  | impure
  | unknown
deriving DecidableEq

def Purity.name : Purity → String
  | .pure => "Pure"
  | .impure => "Impure"
  | .unknown => "Unknown"

/-- only a definite answer counts -/
def Purity.isPure (p : Purity) : Bool := p = .pure

def Comp.purity : Comp → Purity
  | .imm _ | .prim1 _ _ | .adt _ _ _ | .tuple _ | .tupleGet _ _ | .boxNew _ => .pure
  | .prim2 .div _ _ => .impure
  | .prim2 _ _ _ => .pure
  | .boxSet _ _ | .callForeign _ _ | .fail _ => .impure
  | .unbox _ | .call _ _ | .branch _ _ _ => .unknown

end AnfWasm
