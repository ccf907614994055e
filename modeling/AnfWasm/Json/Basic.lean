/-!
# JSON values

`Json` is what a JSON text says to the readers of this library.  Fields of an object keep their
order and may repeat, since a record reader has to refuse a repeated field.

* `Json.other` stands for text that is well formed but that no reader here can use: a number with
  a fraction or an exponent, the number `-0`, a string with half a surrogate pair, and an object
  with such a string for a key.
* `Json.depth` counts nested arrays and objects.
-/

namespace AnfWasm

inductive Json where
  | null
  | bool (b : Bool)
  | int (n : Int)
  | str (s : String)
  | arr (items : List Json)
  | obj (fields : List (String × Json))
  | other
deriving Inhabited

namespace Json

mutual
/-- how deep arrays and objects are nested in a value -/
def depth : Json → Nat
  | .arr items => 1 + depthItems items
  | .obj fields => 1 + depthFields fields
  | _ => 0

def depthItems : List Json → Nat
  | [] => 0
  | j :: js => max j.depth (depthItems js)

def depthFields : List (String × Json) → Nat
  | [] => 0
  | (_, j) :: fs => max j.depth (depthFields fs)
end

def ofNat (n : Nat) : Json := .int n

/-- the string, or `null` for none -/
def ofString? : Option String → Json
  | none => .null
  | some s => .str s

def strings (ss : List String) : Json := .arr (ss.map .str)

/-- the first field of that name -/
def field? (j : Json) (key : String) : Option Json :=
  match j with
  | .obj fields => fields.lookup key
  | _ => none

def str? : Json → Option String
  | .str s => some s
  | _ => none

def bool? : Json → Option Bool
  | .bool b => some b
  | _ => none

def nat? : Json → Option Nat
  | .int (.ofNat n) => some n
  | _ => none

/-- an integer below `2 ^ 32` -/
def uint32? : Json → Option UInt32
  | .int (.ofNat n) => if n < UInt32.size then some (.ofNat n) else none
  | _ => none

/-- an integer from `-2 ^ 31` up to `2 ^ 31 - 1` -/
def int32? : Json → Option Int32
  | .int n => if -2147483648 ≤ n ∧ n < 2147483648 then some (.ofInt n) else none
  | _ => none

def items? : Json → Option (List Json)
  | .arr items => some items
  | _ => none

def fields? : Json → Option (List (String × Json))
  | .obj fields => some fields
  | _ => none

end Json

end AnfWasm
