import AnfWasm.Proofs.Actions
import AnfWasm.Proofs.Wasm.Memory
import AnfWasm.Wasm.Module

/-!
# Running instructions

Code runs on a stack of words and the locals of its function.  It changes a `Store`: the memory, the
heap pointer, and the calls that the host has answered.  A run ends with an activation, or it halts
(`Halt`): it traps, it is stuck because the code is not valid, or calls nest deeper than the budget
allows.

A block of a branch starts with an empty stack and has to leave one word, as does the body of a
function.  The locals of a function are its arguments and then zeros.
-/

namespace AnfWasm.Wasm

/-- A call of an imported function that the host has answered. -/
structure HostCall where
  module : String
  name : String
  args : List Word
  answer : Word

/-- What the host gives back: a word, and the memory, in which it may have written. -/
structure Reply where
  word : Word
  memory : Memory

/-- The host answers a call of `module.name`; it knows the calls before it and sees the memory. -/
abbrev Host := List HostCall → Memory → String → String → List Word → Reply

structure Store where
  memory : Memory
  /-- the global that points at free memory -/
  heap : Word
  /-- the calls of imported functions, in order -/
  trace : List HostCall

/-- a new instance of a module -/
def Store.start : Store := ⟨.page, 0, []⟩

/-- the store after a call of `module.name` -/
def Store.answered (s : Store) (module name : String) (args : List Word) (r : Reply) : Store :=
  { s with memory := r.memory, trace := s.trace ++ [⟨module, name, args, r.word⟩] }

inductive Halt where
  | trap
  /-- the code is not valid -/
  | stuck
  /-- calls nest too deep -/
  | exhausted
deriving DecidableEq

abbrev Exec := EStateM Halt Store

/-- The operands of the function that runs, the last one first, and its locals. -/
structure Activation where
  stack : List Word
  locals : List Word

/-- What calls do. -/
structure Targets where
  arity? : Nat → Option Nat
  call : Nat → List Word → Exec Word

def truth (b : Bool) : Word := if b then 1 else 0

/-- Numbers wrap around.  A division by zero has no result, nor has the one quotient that is too
large. -/
def BinOp.apply (a b : Word) : BinOp → Option Word
  | .add => some (a + b)
  | .sub => some (a - b)
  | .mul => some (a * b)
  | .divS => if b = 0 ∨ a = .minValue ∧ b = -1 then none else some (a / b)
  | .eq => some (truth (a = b))
  | .ne => some (truth (a ≠ b))
  | .ltS => some (truth (a < b))
  | .leS => some (truth (a ≤ b))
  | .gtS => some (truth (a > b))
  | .geS => some (truth (a ≥ b))
  | .and => some (a &&& b)
  | .or => some (a ||| b)

namespace Exec

def orStuck {α : Type} : Option α → Exec α
  | some a => pure a
  | none => throw .stuck

def orTrap {α : Type} : Option α → Exec α
  | some a => pure a
  | none => throw .trap

/-- asks the host -/
def ask (host : Host) (d : ImportDef) (args : List Word) : Exec Word := do
  let s : Store ← get
  let reply := host s.trace s.memory d.module d.name args
  set (s.answered d.module d.name args reply)
  return reply.word

/-- the only word of a stack -/
def result : List Word → Exec Word
  | [w] => return w
  | _ => throw .stuck

end Exec

open Exec

mutual

def Instr.exec (X : Targets) : Instr → Activation → Exec Activation
  | .unreachable => fun _ => throw .trap
  | .drop => fun a =>
    match a.stack with
    | _ :: st => return { a with stack := st }
    | [] => throw .stuck
  | .localGet i => fun a => do
    let w ← orStuck a.locals[i]?
    return { a with stack := w :: a.stack }
  | .localSet i => fun a =>
    match a.stack with
    | w :: st => if i < a.locals.length then return ⟨st, a.locals.set i w⟩ else throw .stuck
    | [] => throw .stuck
  | .globalGet i => fun a => do
    if i = heapPointer then return { a with stack := (← get).heap :: a.stack } else throw .stuck
  | .globalSet i => fun a =>
    match a.stack with
    | w :: st => do
      if i = heapPointer then
        modify fun s => { s with heap := w }
        return { a with stack := st }
      else throw .stuck
    | [] => throw .stuck
  | .load offset => fun a =>
    match a.stack with
    | p :: st => do
      let w ← orTrap ((← get).memory.load? (address p + offset))
      return { a with stack := w :: st }
    | [] => throw .stuck
  | .store offset => fun a =>
    match a.stack with
    | w :: p :: st => do
      let M ← orTrap ((← get).memory.store? (address p + offset) w)
      modify fun s => { s with memory := M }
      return { a with stack := st }
    | _ => throw .stuck
  | .const n => fun a => return { a with stack := n :: a.stack }
  | .eqz => fun a =>
    match a.stack with
    | w :: st => return { a with stack := truth (w = 0) :: st }
    | [] => throw .stuck
  | .binary op => fun a =>
    match a.stack with
    | v :: u :: st => do
      let w ← orTrap (op.apply u v)
      return { a with stack := w :: st }
    | _ => throw .stuck
  | .call i => fun a => do
    let n ← orStuck (X.arity? i)
    if n ≤ a.stack.length then
      let w ← X.call i (a.stack.take n).reverse
      return { a with stack := w :: a.stack.drop n }
    else throw .stuck
  | .ifElse thenCode elseCode => fun a =>
    match a.stack with
    | c :: st => do
      let b ← if c ≠ 0 then Instr.execAll X thenCode ⟨[], a.locals⟩
        else Instr.execAll X elseCode ⟨[], a.locals⟩
      let w ← result b.stack
      return ⟨w :: st, b.locals⟩
    | [] => throw .stuck

def Instr.execAll (X : Targets) : List Instr → Activation → Exec Activation
  | [] => pure
  | i :: is => fun a => do Instr.execAll X is (← i.exec X a)

end

namespace Instr
variable {X : Targets}

theorem execAll_append (X : Targets) (c d : Code) (a : Activation) :
    execAll X (c ++ d) a = execAll X c a >>= execAll X d := by
  induction c generalizing a with
  | nil => rfl
  | cons i c ih =>
    show i.exec X a >>= (fun b => execAll X (c ++ d) b)
      = (i.exec X a >>= execAll X c) >>= execAll X d
    rw [bind_assoc]
    congr 1
    funext b
    exact ih b

/-- the code after a part that ends -/
theorem execAll_append_ok {c d : Code} {a a' : Activation} {s s' : Store}
    (h : execAll X c a s = .ok a' s') : execAll X (c ++ d) a s = execAll X d a' s' := by
  rw [execAll_append]
  exact bind_of_ok h

theorem execAll_cons_ok {i : Instr} {d : Code} {a a' : Activation} {s s' : Store}
    (h : i.exec X a s = .ok a' s') : execAll X (i :: d) a s = execAll X d a' s' :=
  bind_of_ok h

theorem execAll_singleton (X : Targets) (i : Instr) (a : Activation) :
    execAll X [i] a = i.exec X a := bind_pure _

/-! ### single instructions -/

variable {st ls : List Word} {s : Store}

theorem exec_localGet {i : Nat} {w : Word} (h : ls[i]? = some w) :
    (localGet i).exec X ⟨st, ls⟩ s = .ok ⟨w :: st, ls⟩ s := by
  unfold exec
  refine bind_of_ok (a := w) ?_
  show orStuck ls[i]? s = _
  rw [h]
  rfl

theorem exec_localSet {i : Nat} (w : Word) (h : i < ls.length) :
    (localSet i).exec X ⟨w :: st, ls⟩ s = .ok ⟨st, ls.set i w⟩ s := by
  show (if i < ls.length then pure ⟨st, ls.set i w⟩ else throw .stuck : Exec Activation) s = _
  rw [if_pos h]
  rfl

theorem exec_load {p : Word} {offset : Nat} (h : address p + offset + 4 ≤ s.memory.size) :
    (load offset).exec X ⟨p :: st, ls⟩ s
      = .ok ⟨s.memory.word (address p + offset) :: st, ls⟩ s := by
  show (orTrap (s.memory.load? (address p + offset)) >>= fun w => pure ⟨w :: st, ls⟩
    : Exec Activation) s = _
  unfold Memory.load?
  rw [if_pos h]
  rfl

theorem exec_store {p w : Word} {offset : Nat} (h : address p + offset + 4 ≤ s.memory.size) :
    (store offset).exec X ⟨w :: p :: st, ls⟩ s
      = .ok ⟨st, ls⟩ { s with memory := s.memory.setWord (address p + offset) w } := by
  show (orTrap (s.memory.store? (address p + offset) w) >>= fun M => do
    modify fun s => { s with memory := M }
    return ⟨st, ls⟩ : Exec Activation) s = _
  unfold Memory.store?
  rw [if_pos h]
  rfl

theorem exec_binary {op : BinOp} {u v w : Word} (h : op.apply u v = some w) :
    (binary op).exec X ⟨v :: u :: st, ls⟩ s = .ok ⟨w :: st, ls⟩ s := by
  show (orTrap (op.apply u v) >>= fun w => pure ⟨w :: st, ls⟩ : Exec Activation) s = _
  rw [h]
  rfl

theorem exec_binary_trap {op : BinOp} {u v : Word} (h : op.apply u v = none) :
    (binary op).exec X ⟨v :: u :: st, ls⟩ s = .error .trap s := by
  show (orTrap (op.apply u v) >>= fun w => pure ⟨w :: st, ls⟩ : Exec Activation) s = _
  rw [h]
  rfl

/-- the arguments are on top of the stack, the last one first -/
theorem exec_call {i : Nat} {us : List Word} (h : X.arity? i = some us.length) :
    (call i).exec X ⟨us.reverse ++ st, ls⟩ s
      = (X.call i us >>= fun w => pure ⟨w :: st, ls⟩ : Exec Activation) s := by
  have hle : us.length ≤ (us.reverse ++ st).length := by simp
  have htake : (us.reverse ++ st).take us.length = us.reverse := List.take_left' (by simp)
  have hdrop : (us.reverse ++ st).drop us.length = st := List.drop_left' (by simp)
  show (orStuck (X.arity? i) >>= fun n =>
    if n ≤ (us.reverse ++ st).length then do
      let w ← X.call i ((us.reverse ++ st).take n).reverse
      return ⟨w :: (us.reverse ++ st).drop n, ls⟩
    else throw .stuck : Exec Activation) s = _
  rw [h]
  show (if us.length ≤ (us.reverse ++ st).length then do
      let w ← X.call i ((us.reverse ++ st).take us.length).reverse
      return ⟨w :: (us.reverse ++ st).drop us.length, ls⟩
    else throw .stuck : Exec Activation) s = _
  rw [if_pos hle, htake, hdrop, List.reverse_reverse]

/-- the block that is chosen leaves one word -/
theorem exec_ifElse (b : Bool) (thenCode elseCode : Code) :
    (ifElse thenCode elseCode).exec X ⟨truth b :: st, ls⟩ s
      = (execAll X (if b then thenCode else elseCode) ⟨[], ls⟩ >>= fun a => do
          let w ← result a.stack
          return ⟨w :: st, a.locals⟩ : Exec Activation) s := by
  cases b with
  | true => rfl
  | false => rfl

end Instr

namespace Module

def arity? (m : Module) (i : Nat) : Option Nat :=
  match m.imports[i]? with
  | some d => some d.arity.toNat
  | none => m.functions[i - m.imports.length]?.map FuncDef.arity

/-- finds what a function index stands for -/
def dispatch (m : Module) (host : Host) (invoke : FuncDef → List Word → Exec Word) (i : Nat)
    (args : List Word) : Exec Word :=
  match m.imports[i]? with
  | some d => ask host d args
  | none => do
    let f ← orStuck m.functions[i - m.imports.length]?
    if f.arity = args.length then invoke f args else throw .stuck

end Module

/-- the body of a function -/
def FuncDef.run (f : FuncDef) (X : Targets) (args : List Word) : Exec Word := do
  let a ← Instr.execAll X f.code ⟨[], args ++ List.replicate f.locals 0⟩
  result a.stack

namespace Module

/-- A call of the function with that index when calls may nest `budget` deep. -/
def call (m : Module) (host : Host) : (budget : Nat) → Nat → List Word → Exec Word
  | 0 => m.dispatch host fun _ _ => throw .exhausted
  | n + 1 => m.dispatch host fun f args => f.run ⟨m.arity?, m.call host n⟩ args

def targets (m : Module) (host : Host) (budget : Nat) : Targets := ⟨m.arity?, m.call host budget⟩

variable {m : Module} {j : Nat}

theorem arity?_import {d : ImportDef} (h : m.imports[j]? = some d) :
    m.arity? j = some d.arity.toNat := by
  unfold arity?
  rw [h]

theorem call_import {d : ImportDef} (h : m.imports[j]? = some d) (host : Host) (budget : Nat)
    (args : List Word) : m.call host budget j args = ask host d args := by
  cases budget with
  | zero =>
    unfold call dispatch
    rw [h]
  | succ n =>
    unfold call dispatch
    rw [h]

theorem arity?_function {d : FuncDef} (h : m.functions[j]? = some d) :
    m.arity? (m.imports.length + j) = some d.arity := by
  unfold arity?
  rw [List.getElem?_eq_none (Nat.le_add_right _ _), Nat.add_sub_cancel_left, h]
  rfl

theorem call_function {d : FuncDef} (h : m.functions[j]? = some d) (host : Host) (budget : Nat)
    {args : List Word} (harity : d.arity = args.length) :
    m.call host (budget + 1) (m.imports.length + j) args = d.run (m.targets host budget) args := by
  unfold call dispatch
  rw [List.getElem?_eq_none (Nat.le_add_right _ _), Nat.add_sub_cancel_left, h]
  show (if d.arity = args.length then d.run _ args else throw .stuck) = _
  rw [if_pos harity]
  rfl

end Module

end AnfWasm.Wasm
