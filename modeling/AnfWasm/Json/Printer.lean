import AnfWasm.Json.Basic

/-!
# Compact JSON text

`Json.compact` writes a value without blanks.  In a string only the quote, the backslash and the
control characters below U+0020 are escaped; everything else stands for itself.
-/

namespace AnfWasm.Json

/-- a digit of a number in base sixteen, in lower case -/
def hexDigit (n : Nat) : Char := Nat.digitChar (n % 16)

/-- one character of a string, escaped where it has to be -/
def escapeChar (c : Char) : List Char :=
  if c = '"' then ['\\', '"']
  else if c = '\\' then ['\\', '\\']
  else if c = '\x08' then ['\\', 'b']
  else if c = '\t' then ['\\', 't']
  else if c = '\n' then ['\\', 'n']
  else if c = '\x0c' then ['\\', 'f']
  else if c = '\r' then ['\\', 'r']
  else if c.toNat < 0x20 then
    ['\\', 'u', '0', '0', hexDigit (c.toNat / 16), hexDigit c.toNat]
  else [c]

def stringChars (s : String) : List Char :=
  '"' :: s.toList.flatMap escapeChar ++ ['"']

def intChars : Int → List Char
  | .ofNat n => Nat.toDigits 10 n
  | .negSucc n => '-' :: Nat.toDigits 10 (n + 1)

mutual
/-- the characters of the compact text; `other` has the shortest text that reads as `other` -/
def chars : Json → List Char
  | .null => ['n', 'u', 'l', 'l']
  | .bool true => ['t', 'r', 'u', 'e']
  | .bool false => ['f', 'a', 'l', 's', 'e']
  | .int n => intChars n
  | .str s => stringChars s
  | .arr items => '[' :: itemChars items
  | .obj fields => '\x7b' :: fieldChars fields
  | .other => ['-', '0']

/-- the items of an array with their closing bracket -/
def itemChars : List Json → List Char
  | [] => [']']
  | [j] => j.chars ++ [']']
  | j :: js => j.chars ++ ',' :: itemChars js

/-- the fields of an object with their closing brace -/
def fieldChars : List (String × Json) → List Char
  | [] => ['\x7d']
  | [(k, j)] => stringChars k ++ ':' :: j.chars ++ ['\x7d']
  | (k, j) :: fs => stringChars k ++ ':' :: j.chars ++ ',' :: fieldChars fs
end

def compact (j : Json) : String := String.ofList j.chars

end AnfWasm.Json
