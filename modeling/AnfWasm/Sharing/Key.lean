import AnfWasm.Program.Purity
import AnfWasm.Program.Walk

/-!
# Keys of constructions

A `Key` is the content of a construction of an immutable value.  Identifiers enter it by stamp, so
two constructions have one key exactly when they build the same value from the same operands.
-/

namespace AnfWasm

/-- An operand without its display name. -/
inductive Atom where
  | var (stamp : UInt32)
  | const (value : Constant)
deriving DecidableEq

def Imm.atom : Imm → Atom
  | .id x => .var x.stamp
  | .const c => .const c

inductive Key where
  | adt (typeTag variant : UInt32) (args : List Atom)
  | tuple (args : List Atom)
deriving DecidableEq

/-- Only constructions of immutable values have a key; a new cell has an identity of its own. -/
def Comp.key? : Comp → Option Key
  | .adt typeTag variant args => some (.adt typeTag variant (args.map Imm.atom))
  | .tuple args => some (.tuple (args.map Imm.atom))
  | _ => none

/-- What is known of a computation without evaluating it. -/
structure Analysis where
  comp : Comp
  purity : Purity
  key? : Option Key
  /-- where the first computation with this key stands -/
  first? : Option Nat

/-- the computations of a program in the order of the walk -/
def Program.analyses (p : Program) : List Analysis :=
  let comps := p.comps
  comps.map fun c => {
    comp := c
    purity := c.purity
    key? := c.key?
    first? := c.key?.bind fun k => comps.findIdx? fun d => d.key? = some k }

end AnfWasm
