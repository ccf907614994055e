import AnfWasm.Program.Mapper
import AnfWasm.Sharing.Basic

/-!
# Sharing hook by hook

Here the pass is a mapper, with the ways in which it could fail: replacements are followed in a loop
that may run out of steps, a let may be left when there is no region, and something may be left over
at the end.  `walk` runs the hooks over a program and keeps all states that it comes to.
-/

namespace AnfWasm.Sharing

/-- Follows replacements to their end, if that takes at most `limit` steps. -/
def follow? (merges : List (Ident × Ident)) (limit : Nat) (x : Ident) : Option Ident :=
  match limit, replacement? merges x.stamp with
  | _, none => some x
  | 0, some _ => none
  | n + 1, some y => follow? merges n y

/-- Why a walk stops. -/
inductive Fault where
  /-- the replacements of the identifier do not come to an end within the limit -/
  | endless (x : Ident)
  /-- a let is left and there is no region -/
  | outOfSync
  /-- something is left of the table or the regions at the end -/
  | leftover
deriving DecidableEq

/-- The state of the pass and all states that it has been in. -/
structure Trail where
  state : State
  past : List State

def Trail.start : Trail := ⟨.start, [.start]⟩

abbrev Walk := EStateM Fault Trail

/-- the state becomes another one -/
def advance (f : State → State) : Walk Unit :=
  modify fun t => ⟨f t.state, t.past ++ [f t.state]⟩

/-- a let opens a region -/
def openRegion : Expr → Walk Unit
  | .letIn kind _ _ => advance (·.push kind)
  | _ => pure ()

/-- a let that is left closes its region -/
def closeRegion : Walk Unit := do
  if (← get).state.regions.isEmpty then throw .outOfSync else advance State.pop

/-- what the replacements of an identifier have come to -/
def foundAs (x : Ident) : Option Ident → Walk Imm
  | some y => return .id y
  | none => throw (.endless x)

/-- The pass as a mapper.  The loop that follows replacements may make `limit` steps. -/
def mapper (limit : Nat) : Mapper Walk :=
  { Mapper.identity Walk with
    enterExpr := fun e => do
      openRegion e
      return e
    leaveExpr := fun
      | .letIn kind bindings body => do
        closeRegion
        return prune (← get).state kind bindings body
      | e => return e
    leaveBinding := fun b => do
      advance (·.register b)
      return b
    enterImm := fun
      | .id x => do foundAs x (follow? (← get).state.merges limit x)
      | .const c => return .const c }

/-- the check at the end -/
def checkEmpty : Walk Unit := do
  let s := (← get).state
  if s.regions.isEmpty && s.table.isEmpty then return () else throw .leftover

def walk (limit : Nat) (p : Program) : Walk Program := do
  let q ← p.mapM (mapper limit) 0
  checkEmpty
  return q

end AnfWasm.Sharing
