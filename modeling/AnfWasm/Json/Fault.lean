import AnfWasm.Bytes

/-!
# Where a text stops being JSON

A reader that fails says why and how much text was left.  `Fault.message` turns that into a line
and a column; columns count bytes.
-/

namespace AnfWasm.Json

/-- Why a text is not JSON. -/
inductive Cause where
  | endInValue
  | endInString
  | endInList
  | endInObject
  | expectedValue
  /-- a word other than `null`, `true` and `false` -/
  | expectedWord
  | expectedColon
  | expectedListEnd
  | expectedObjectEnd
  | expectedKey
  | invalidNumber
  | invalidEscape
  | controlCharacter
  | trailingText
deriving DecidableEq

def Cause.text : Cause → String
  | .endInValue => "EOF while parsing a value"
  | .endInString => "EOF while parsing a string"
  | .endInList => "EOF while parsing a list"
  | .endInObject => "EOF while parsing an object"
  | .expectedValue => "expected value"
  | .expectedWord => "expected ident"
  | .expectedColon => "expected `:`"
  | .expectedListEnd => "expected `,` or `]`"
  | .expectedObjectEnd => "expected `,` or `\x7d`"
  | .expectedKey => "key must be a string"
  | .invalidNumber => "invalid number"
  | .invalidEscape => "invalid escape"
  | .controlCharacter => "control character (\\u0000-\\u001F) found while parsing a string"
  | .trailingText => "trailing characters"

/-- A cause, and the number of bytes after the place where it shows. -/
structure Fault where
  cause : Cause
  left : Nat
deriving DecidableEq

namespace Fault

def byteLength (cs : List Char) : Nat := (utf8 (String.ofList cs)).length

/-- before the text that is left -/
def before (cause : Cause) (cs : List Char) : Fault := ⟨cause, byteLength cs⟩

/-- in the first byte of the text that is left -/
def here (cause : Cause) (cs : List Char) : Fault := ⟨cause, byteLength cs - 1⟩

/-- at the end of the text -/
def atEnd (cause : Cause) : Fault := ⟨cause, 0⟩

def lineFeed : UInt8 := 10

/-- the cause with its line and column in the text -/
def message (text : String) (f : Fault) : String :=
  let bs := utf8 text
  let seen := bs.take (bs.length - f.left)
  let line := seen.count lineFeed + 1
  let column := (seen.reverse.takeWhile (· != lineFeed)).length
  f.cause.text ++ " at line " ++ line.repr ++ " column " ++ column.repr

end Fault

end AnfWasm.Json
