/-!
# Variable length quantities

An integer is written in base 64, five bits per digit and the lowest first.  The lowest bit of all
is the sign, and the sixth bit of a digit says that another digit follows.

`write` does this in words of 64 bits, which wrap around: it moves the sign into the lowest bit and
then takes off five bits in each round until nothing is left.
-/

namespace AnfWasm.Vlq

def digits : List Char :=
  "ABCDEFGHIJKLMNOPQRSTUVWXYZabcdefghijklmnopqrstuvwxyz0123456789+/".toList

/-- the digit of a number below 64 -/
def digit (n : Nat) : Char := digits.getD n 'A'

/-- the number with its sign in the lowest bit -/
def zigzag (v : Int) : Nat :=
  match v with
  | .ofNat n => 2 * n
  | .negSucc n => 2 * (n + 1) + 1

def encodeNat (n : Nat) : List Char :=
  if n < 32 then [digit n] else digit (n % 32 + 32) :: encodeNat (n / 32)

def encode (v : Int) : List Char := encodeNat (zigzag v)

/-! ### in words -/

/-- the number with its sign in the lowest bit, as far as a word has room for it -/
def zigzag64 (v : Int64) : Int64 := if v < 0 then (-v) <<< 1 ||| 1 else v <<< 1

/-- takes off five bits in each round; there is no result when more rounds are needed -/
def writeWord : (rounds : Nat) → List Char → Int64 → Option (List Char)
  | 0, _, _ => none
  | rounds + 1, out, rest =>
    let more := rest >>> 5
    let next := if 0 < more then rest &&& 31 ||| 32 else rest &&& 31
    let out := out ++ [digit next.toUInt64.toNat]
    if more = 0 then some out else writeWord rounds out more

/-- writes a number behind a text -/
def write (rounds : Nat) (out : List Char) (v : Int64) : Option (List Char) :=
  writeWord rounds out (zigzag64 v)

end AnfWasm.Vlq
