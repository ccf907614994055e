/-!
# Variable-length numbers

Seven bits per byte, the low bits first; the top bit of a byte says that another one follows.
-/

namespace AnfWasm.Wasm.Leb128

/-- an unsigned number in as few bytes as possible -/
def unsigned (n : Nat) : List UInt8 :=
  if n < 128 then [.ofNat n] else .ofNat (n % 128 + 128) :: unsigned (n / 128)
termination_by n
decreasing_by omega

/-- a signed number in as few bytes as possible; bit six of the last byte is the sign -/
def signed (n : Int) : List UInt8 :=
  if -64 ≤ n ∧ n < 64 then [.ofNat (n % 128).toNat]
  else .ofNat ((n % 128).toNat + 128) :: signed (n / 128)
termination_by n.natAbs
decreasing_by omega

/-- the number of bytes of the number that the bytes start with -/
def width : List UInt8 → Nat
  | [] => 0
  | b :: bs => if b < 128 then 1 else width bs + 1

end AnfWasm.Wasm.Leb128
