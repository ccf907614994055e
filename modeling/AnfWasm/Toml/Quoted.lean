/-!
# Quoted strings in TOML

TOML has four quoted forms: basic or literal, on one line or on many.  `quote?` takes the plainest
one that needs no escapes and falls back on a basic form with escapes.  To choose it counts quotes
that stand in a row, in one byte; a string with more of them cannot be quoted.
-/

namespace AnfWasm.Toml

/-- control characters that no form takes as they are -/
def isControl (c : Char) : Bool :=
  (c.toNat < 0x20 && c ≠ '\t' && c ≠ '\n') || c.toNat = 0x7f

/-- the most `q` in a row, where `run` of them came just before -/
def longestRun (q : Char) (run : Nat) : List Char → Nat
  | [] => run
  | c :: cs => if c = q then longestRun q (run + 1) cs else max run (longestRun q 0 cs)

/-- four upper-case hexadecimal digits -/
def hex4 (n : Nat) : List Char :=
  [n / 4096 % 16, n / 256 % 16, n / 16 % 16, n % 16].map fun d => (Nat.digitChar d).toUpper

/-- the escape of a character that a basic form cannot show, line feeds and quotes apart -/
def escape? (c : Char) : Option (List Char) :=
  if c = '\x08' then some ['\\', 'b']
  else if c = '\t' then some ['\\', 't']
  else if c = '\x0c' then some ['\\', 'f']
  else if c = '\r' then some ['\\', 'r']
  else if c = '\\' then some ['\\', '\\']
  else if c ≠ '\n' && isControl c then some ('\\' :: 'u' :: hex4 c.toNat)
  else none

/-- the inside of a basic string on one line -/
def basicLine : List Char → List Char
  | [] => []
  | c :: cs =>
    if c = '\n' then '\\' :: 'n' :: basicLine cs
    else if c = '"' then '\\' :: '"' :: basicLine cs
    else (escape? c).getD [c] ++ basicLine cs

/-- The inside of a basic string on many lines after `run` plain quotes: of three quotes in a row
the third is escaped. -/
def basicLines (run : Nat) : List Char → List Char
  | [] => []
  | c :: cs =>
    if c = '"' then
      if run = 2 then '\\' :: '"' :: basicLines 0 cs else '"' :: basicLines (run + 1) cs
    else (escape? c).getD [c] ++ basicLines 0 cs

/-- the most quotes of one kind in a row that can be counted -/
def maxRun : Nat := 255

/-- can the quotes of the string be counted? -/
def isCountable (cs : List Char) : Bool :=
  longestRun '"' 0 cs ≤ maxRun && longestRun '\x27' 0 cs ≤ maxRun

/-- the string in the form that suits it -/
def quoted (s : String) : String :=
  let cs := s.toList
  let control := cs.any isControl
  let has (c : Char) : Bool := cs.contains c
  let basic := "\"" ++ String.ofList (basicLine cs) ++ "\""
  let opening := if has '\n' then "\n" else ""
  let basicMany := "\"\"\"" ++ opening ++ String.ofList (basicLines 0 cs) ++ "\"\"\""
  if control then if has '\n' then basicMany else basic
  else if !has '\\' && !has '"' && !has '\n' then basic
  else if !has '\x27' && !has '\n' then "'" ++ s ++ "'"
  else if !has '\\' && longestRun '"' 0 cs ≤ 2 then basicMany
  else if longestRun '\x27' 0 cs ≤ 2 then "'''" ++ opening ++ s ++ "'''"
  else if has '\n' then basicMany
  else basic

/-- the string as a TOML value -/
def quote? (s : String) : Option String :=
  if isCountable s.toList then some (quoted s) else none

end AnfWasm.Toml
