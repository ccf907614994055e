import AnfWasm.Json.Basic

/-!
# Records, alternatives and lists in JSON

How structured data is read off a `Json` value.  A record is an object with named fields or an
array of its fields in order; an alternative is an object with one field named for it, and one
without data may be its bare name.

Readers of structured data take a nesting allowance: each array or object that they open costs
one.  What a record reader skips costs nothing, so the allowance is about the data that is read
and not about the text.
-/

namespace AnfWasm.Json

/-- The value of a field that may be missing and may not be repeated. -/
def single? (key : String) (fields : List (String × Json)) : Option (Option Json) :=
  match fields.filter (·.1 == key) with
  | [] => some none
  | [f] => some (some f.2)
  | _ => none

/-- The fields `names` of a record in that order, `none` where one is missing.  An object may have
further fields; an array may only be too short. -/
def record (names : List String) : Json → Option (List (Option Json))
  | .obj fields => names.mapM fun name => single? name fields
  | .arr items =>
    if items.length ≤ names.length then
      some (items.map some ++ List.replicate (names.length - items.length) none)
    else none
  | _ => none

/-- a field that stands for `d` when it is missing -/
def orElse {α : Type} (d : α) (read : Json → Option α) : Option Json → Option α
  | none => some d
  | some j => read j

/-- `null` is no value -/
def nullable {α : Type} (read : Json → Option α) : Json → Option (Option α)
  | .null => some none
  | j => some <$> read j

def list {α : Type} (read : Nat → Json → Option α) : Nat → Json → Option (List α)
  | n + 1, .arr items => items.mapM (read n)
  | _, _ => none

/-- the name of an alternative without data -/
def bare? : Nat → Json → Option String
  | _, .str s => some s
  | _ + 1, .obj [(s, .null)] => some s
  | _, _ => none

/-- how deep texts from outside may nest -/
def textAllowance : Nat := 127

end AnfWasm.Json
