import AnfWasm.Json.Basic
import AnfWasm.Json.Fault

/-!
# Reading JSON text

The reader takes exactly the texts of the JSON grammar: blanks are space, tab, line feed and
carriage return, nothing follows the value, and a string holds no control character below U+0020.

* `scanString` finds the end of a string and gives its `Piece`s, `text?` puts the halves of
  surrogate pairs together;
* `scanNumber` is one number;
* `value`, `items`, `members` read by recursive descent.  Their first argument bounds the number
  of steps; `parse` starts them with more steps than a text of that length can take.

Each of them takes what it reads off the front of a text and leaves the rest, or it fails at the
first character that no JSON text could have there.
-/

namespace AnfWasm.Json

def isBlank (c : Char) : Bool := c = ' ' || c = '\t' || c = '\n' || c = '\r'

def skipBlank (cs : List Char) : List Char := cs.dropWhile isBlank

/-! ### strings -/

/-- A piece of a string: a character, or the number of a `\u` escape. -/
inductive Piece where
  | char (c : Char)
  | unit (n : Nat)
deriving DecidableEq

def hexValue? (c : Char) : Option Nat :=
  if '0' ≤ c ∧ c ≤ '9' then some (c.toNat - '0'.toNat)
  else if 'a' ≤ c ∧ c ≤ 'f' then some (c.toNat - 'a'.toNat + 10)
  else if 'A' ≤ c ∧ c ≤ 'F' then some (c.toNat - 'A'.toNat + 10)
  else none

/-- the number of four digits in base sixteen -/
def unit? (a b c d : Char) : Option Nat := do
  let a ← hexValue? a
  let b ← hexValue? b
  let c ← hexValue? c
  let d ← hexValue? d
  return ((a * 16 + b) * 16 + c) * 16 + d

/-- the character that a backslash and `c` stand for -/
def unescape? (c : Char) : Option Char :=
  if c = '"' then some '"'
  else if c = '\\' then some '\\'
  else if c = '/' then some '/'
  else if c = 'b' then some '\x08'
  else if c = 'f' then some '\x0c'
  else if c = 'n' then some '\n'
  else if c = 'r' then some '\r'
  else if c = 't' then some '\t'
  else none

/-- The pieces of a string up to its closing quote, and what follows the quote. -/
def scanString : List Char → Except Fault (List Piece × List Char)
  | [] => .error (.atEnd .endInString)
  | '"' :: cs => .ok ([], cs)
  | '\\' :: 'u' :: a :: b :: c :: d :: cs =>
    match unit? a b c d with
    | none => .error (.before .invalidEscape cs)
    | some n => do
      let (ps, rest) ← scanString cs
      return (.unit n :: ps, rest)
  | '\\' :: c :: cs =>
    match unescape? c with
    | none => .error (if c = 'u' then .atEnd .endInString else .here .invalidEscape (c :: cs))
    | some e => do
      let (ps, rest) ← scanString cs
      return (.char e :: ps, rest)
  | c :: cs =>
    if c = '\\' then .error (.atEnd .endInString)
    else if c.toNat < 0x20 then .error (.before .controlCharacter (c :: cs))
    else do
      let (ps, rest) ← scanString cs
      return (.char c :: ps, rest)

def isHighHalf (n : Nat) : Bool := 0xD800 ≤ n && n < 0xDC00
def isLowHalf (n : Nat) : Bool := 0xDC00 ≤ n && n < 0xE000

/-- The characters of the pieces, if every high half of a surrogate pair is followed by a low half
and no low half stands elsewhere. -/
def joinPieces : List Piece → Option (List Char)
  | [] => some []
  | .char c :: ps => (c :: ·) <$> joinPieces ps
  | .unit h :: .unit l :: ps =>
    if isHighHalf h then
      if isLowHalf l then
        (Char.ofNat (0x10000 + (h - 0xD800) * 0x400 + (l - 0xDC00)) :: ·) <$> joinPieces ps
      else none
    else if isLowHalf h then none
    else (Char.ofNat h :: ·) <$> joinPieces (.unit l :: ps)
  | .unit n :: ps =>
    if isHighHalf n || isLowHalf n then none else (Char.ofNat n :: ·) <$> joinPieces ps

def text? (ps : List Piece) : Option String := String.ofList <$> joinPieces ps

/-! ### numbers -/

def takeDigits (cs : List Char) : List Char × List Char := cs.span Char.isDigit

/-- digits of which there must be one -/
def scanDigits (cs : List Char) : Except Fault (List Char × List Char) :=
  match takeDigits cs with
  | ([], _) => .error (.here .invalidNumber cs)
  | r => .ok r

/-- a whole number: no zero stands before another digit -/
def scanWhole : List Char → Except Fault (List Char × List Char)
  | '0' :: cs =>
    if cs.head?.any Char.isDigit then .error (.here .invalidNumber cs) else .ok (['0'], cs)
  | cs => scanDigits cs

/-- a fraction, if there is one; `true` if there was -/
def scanFraction : List Char → Except Fault (Bool × List Char)
  | '.' :: cs => do
    let (_, rest) ← scanDigits cs
    return (true, rest)
  | cs => .ok (false, cs)

/-- the text after the sign of an exponent, if it has one -/
def skipSign : List Char → List Char
  | '+' :: cs => cs
  | '-' :: cs => cs
  | cs => cs

/-- an exponent, if there is one; `true` if there was -/
def scanExponent : List Char → Except Fault (Bool × List Char)
  | e :: cs =>
    if e = 'e' ∨ e = 'E' then do
      let (_, rest) ← scanDigits (skipSign cs)
      return (true, rest)
    else .ok (false, e :: cs)
  | [] => .ok (false, [])

/-- A number after its sign. -/
def scanNumber (negative : Bool) (cs : List Char) : Except Fault (Json × List Char) := do
  let (ds, cs) ← scanWhole cs
  let (hasFraction, cs) ← scanFraction cs
  let (hasExponent, cs) ← scanExponent cs
  let n := Nat.ofDigitChars 10 ds 0
  if hasFraction || hasExponent then return (.other, cs)
  else if !negative then return (.int n, cs)
  else if n = 0 then return (.other, cs)
  else return (.int (-(n : Int)), cs)

/-! ### values -/

/-- `none` for the key of a field whose text has half a surrogate pair -/
def ofMembers (ms : List (Option String × Json)) : Json :=
  match ms.mapM fun m => m.1.map fun k => (k, m.2) with
  | some fields => .obj fields
  | none => .other

/-- the rest of a word that stands for `j` -/
def word (j : Json) : List Char → List Char → Except Fault (Json × List Char)
  | [], cs => .ok (j, cs)
  | _ :: _, [] => .error (.atEnd .endInValue)
  | e :: es, c :: cs => if c = e then word j es cs else .error (.here .expectedWord (c :: cs))

mutual
def value : Nat → List Char → Except Fault (Json × List Char)
  | 0, cs => .error (.before .expectedValue cs)
  | n + 1, cs =>
    match skipBlank cs with
    | [] => .error (.atEnd .endInValue)
    | 'n' :: cs => word .null ['u', 'l', 'l'] cs
    | 't' :: cs => word (.bool true) ['r', 'u', 'e'] cs
    | 'f' :: cs => word (.bool false) ['a', 'l', 's', 'e'] cs
    | '"' :: cs => do
      let (ps, cs) ← scanString cs
      return ((text? ps).elim .other .str, cs)
    | '[' :: cs =>
      match skipBlank cs with
      | [] => .error (.atEnd .endInList)
      | ']' :: cs => .ok (.arr [], cs)
      | cs => do
        let (js, cs) ← items n cs
        return (.arr js, cs)
    | '\x7b' :: cs =>
      match skipBlank cs with
      | [] => .error (.atEnd .endInObject)
      | '\x7d' :: cs => .ok (.obj [], cs)
      | cs => do
        let (ms, cs) ← members n cs
        return (ofMembers ms, cs)
    | '-' :: cs => scanNumber true cs
    | c :: cs =>
      if c.isDigit then scanNumber false (c :: cs) else .error (.here .expectedValue (c :: cs))

/-- one item or more, and the closing bracket -/
def items : Nat → List Char → Except Fault (List Json × List Char)
  | 0, cs => .error (.before .expectedValue cs)
  | n + 1, cs => do
    let (j, cs) ← value n cs
    match skipBlank cs with
    | ']' :: cs => return ([j], cs)
    | ',' :: cs =>
      let (js, cs) ← items n cs
      return (j :: js, cs)
    | [] => .error (.atEnd .endInList)
    | cs => .error (.here .expectedListEnd cs)

/-- one field or more, and the closing brace -/
def members : Nat → List Char →
    Except Fault (List (Option String × Json) × List Char)
  | 0, cs => .error (.before .expectedValue cs)
  | n + 1, cs =>
    match skipBlank cs with
    | '"' :: cs => do
      let (ps, cs) ← scanString cs
      match skipBlank cs with
      | ':' :: cs =>
        let (j, cs) ← value n cs
        match skipBlank cs with
        | '\x7d' :: cs => return ([(text? ps, j)], cs)
        | ',' :: cs =>
          let (ms, cs) ← members n cs
          return ((text? ps, j) :: ms, cs)
        | [] => .error (.atEnd .endInObject)
        | cs => .error (.here .expectedObjectEnd cs)
      | [] => .error (.atEnd .endInObject)
      | cs => .error (.here .expectedColon cs)
    | [] => .error (.atEnd .endInObject)
    | cs => .error (.here .expectedKey cs)
end

/-- The value of a whole text; each step but one in two takes a character, hence the bound. -/
def parseChars (cs : List Char) : Except Fault Json := do
  let (j, rest) ← value (2 * cs.length + 1) cs
  match skipBlank rest with
  | [] => return j
  | rest => .error (.here .trailingText rest)

def parse (text : String) : Except Fault Json := parseChars text.toList

/-- the value of a text that is JSON -/
def parse? (text : String) : Option Json := (parse text).toOption

end AnfWasm.Json
