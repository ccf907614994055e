/-!
# Reading TOML

`entries?` reads a document of plain settings: one `key = value` per line, where a value is a truth
value or a string.  Tables, other values and anything that is not TOML are refused.

The readers of strings take the text after the opening quotes and leave the text after the closing
ones.
-/

namespace AnfWasm.Toml

inductive Value where
  | bool (b : Bool)
  | str (s : String)
deriving DecidableEq

/-! ### characters -/

def isBlank (c : Char) : Bool := c = ' ' || c = '\t'

/-- a character that stands for itself in strings and comments -/
def isPlain (c : Char) : Bool := c = '\t' || (0x20 ≤ c.toNat && c.toNat ≠ 0x7f)

def isBare (c : Char) : Bool := c.isAlphanum || c = '_' || c = '-'

def skipBlanks (cs : List Char) : List Char := cs.dropWhile isBlank

/-- the text after a line break -/
def newline? : List Char → Option (List Char)
  | '\n' :: cs => some cs
  | '\r' :: '\n' :: cs => some cs
  | _ => none

/-- a comment up to the end of its line -/
def comment : List Char → Option (List Char)
  | '#' :: cs =>
    let rest := cs.dropWhile isPlain
    if rest.isEmpty || (newline? rest).isSome then some rest else none
  | cs => some cs

/-- what may stand between the end of a value and the next line -/
def lineEnd (cs : List Char) : Option (List Char) := do
  let rest ← comment (skipBlanks cs)
  if rest.isEmpty then some [] else newline? rest

/-! ### escapes -/

def hexDigit? (c : Char) : Option Nat :=
  if '0' ≤ c && c ≤ '9' then some (c.toNat - '0'.toNat)
  else if 'a' ≤ c && c ≤ 'f' then some (c.toNat - 'a'.toNat + 10)
  else if 'A' ≤ c && c ≤ 'F' then some (c.toNat - 'A'.toNat + 10)
  else none

/-- the character whose number starts `cs` in `n` hexadecimal digits -/
def scalar? (n : Nat) (cs : List Char) : Option Char := do
  let ds ← (cs.take n).mapM hexDigit?
  let code := ds.foldl (fun acc d => acc * 16 + d) 0
  if ds.length = n ∧ code.isValidChar then some (Char.ofNat code) else none

/-- the meaning of an escape without its backslash, and how many characters it takes -/
def escape : List Char → Option (Char × Nat)
  | 'b' :: _ => some ('\x08', 1)
  | 't' :: _ => some ('\t', 1)
  | 'n' :: _ => some ('\n', 1)
  | 'f' :: _ => some ('\x0c', 1)
  | 'r' :: _ => some ('\r', 1)
  | '"' :: _ => some ('"', 1)
  | '\\' :: _ => some ('\\', 1)
  | 'u' :: cs => (scalar? 4 cs).map fun c => (c, 5)
  | 'U' :: cs => (scalar? 8 cs).map fun c => (c, 9)
  | _ => none

/-! ### strings -/

/-- a character before the rest of a string -/
def andThen (c : Char) (rest : Option (List Char × List Char)) : Option (List Char × List Char) :=
  rest.map fun (s, cs) => (c :: s, cs)

def basic : List Char → Option (List Char × List Char)
  | [] => none
  | c :: cs =>
    if c = '"' then some ([], cs)
    else if c = '\\' then
      match escape cs with
      | some (e, n) => andThen e (basic (cs.drop n))
      | none => none
    else if isPlain c then andThen c (basic cs)
    else none
termination_by cs => cs.length
decreasing_by all_goals (simp only [List.length_cons, List.length_drop]; omega)

def literal : List Char → Option (List Char × List Char)
  | [] => none
  | c :: cs =>
    if c = '\x27' then some ([], cs)
    else if isPlain c then andThen c (literal cs)
    else none

/-- the end of a string on many lines, before which up to two more quotes may stand -/
def closing? (q : Char) (cs : List Char) : Option (List Char × List Char) :=
  let quotes := min (cs.takeWhile (· = q)).length 5
  if 3 ≤ quotes then some (List.replicate (quotes - 3) q, cs.drop quotes) else none

/-- does a line end here, blanks apart? -/
def breaksLine (cs : List Char) : Bool := (newline? (skipBlanks cs)).isSome

/-- A basic string on many lines.  A backslash at the end of a line leaves out all blanks and line
breaks after it, which is what `skip` stands for. -/
def basicMany (skip : Bool) : List Char → Option (List Char × List Char)
  | [] => none
  | c :: cs =>
    if skip && (isBlank c || (newline? (c :: cs)).isSome) then basicMany true cs
    else match closing? '"' (c :: cs) with
      | some close => some close
      | none =>
        if c = '\\' then
          if breaksLine cs then basicMany true cs
          else match escape cs with
            | some (e, n) => andThen e (basicMany false (cs.drop n))
            | none => none
        else if c = '\r' && cs.head? = some '\n' then basicMany false cs
        else if c = '\n' || isPlain c then andThen c (basicMany false cs)
        else none
termination_by cs => cs.length
decreasing_by all_goals (simp only [List.length_cons, List.length_drop]; omega)

def literalMany : List Char → Option (List Char × List Char)
  | [] => none
  | c :: cs =>
    match closing? '\x27' (c :: cs) with
    | some close => some close
    | none =>
      if c = '\r' && cs.head? = some '\n' then literalMany cs
      else if c = '\n' || isPlain c then andThen c (literalMany cs)
      else none

/-- a line break right after the opening quotes does not count -/
def afterOpening (cs : List Char) : List Char := (newline? cs).getD cs

/-! ### documents -/

def asText (s : Option (List Char × List Char)) : Option (String × List Char) :=
  s.map fun (s, cs) => (String.ofList s, cs)

def key? : List Char → Option (String × List Char)
  | '"' :: cs => asText (basic cs)
  | '\x27' :: cs => asText (literal cs)
  | cs =>
    let name := cs.takeWhile isBare
    if name.isEmpty then none else some (String.ofList name, cs.dropWhile isBare)

def value? : List Char → Option (Value × List Char)
  | 't' :: 'r' :: 'u' :: 'e' :: cs => some (.bool true, cs)
  | 'f' :: 'a' :: 'l' :: 's' :: 'e' :: cs => some (.bool false, cs)
  | '"' :: '"' :: '"' :: cs =>
    (asText (basicMany false (afterOpening cs))).map fun (s, cs) => (.str s, cs)
  | '\x27' :: '\x27' :: '\x27' :: cs =>
    (asText (literalMany (afterOpening cs))).map fun (s, cs) => (.str s, cs)
  | '"' :: cs => (asText (basic cs)).map fun (s, cs) => (.str s, cs)
  | '\x27' :: cs => (asText (literal cs)).map fun (s, cs) => (.str s, cs)
  | _ => none

/-- a `key = value` line, and the text after it -/
def entry? (cs : List Char) : Option ((String × Value) × List Char) := do
  let (key, cs) ← key? (skipBlanks cs)
  match skipBlanks cs with
  | '=' :: cs =>
    let (value, cs) ← value? (skipBlanks cs)
    let rest ← lineEnd cs
    return ((key, value), rest)
  | _ => none

/-- the entries of at most `n` lines -/
def lines? : Nat → List Char → Option (List (String × Value))
  | 0, _ => none
  | n + 1, cs =>
    if cs.isEmpty then some []
    else match lineEnd cs with
      | some rest => lines? n rest
      | none => do
        let (e, rest) ← entry? cs
        let es ← lines? n rest
        return e :: es

/-- The settings of a document in order.  A mark for the byte order may stand before it. -/
def entries? (s : String) : Option (List (String × Value)) :=
  let cs := match s.toList with
    | '\ufeff' :: cs => cs
    | cs => cs
  lines? (cs.length + 1) cs

end AnfWasm.Toml
