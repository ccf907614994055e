import AnfWasm.Wasm.Instr
import Mathlib.Algebra.Group.Nat.Defs

/-!
# Linear memory

A memory has a number of bytes, as many as there are addresses at most.  A word is four bytes, the
lowest one first, and an access beyond the size is refused.

* `Memory.word_setWord`, `Memory.word_setWord_other`   what is read after a word is written;
* `Memory.word_write`, `Memory.word_write_other`       and after several words are, one behind
                                                       the other.
-/

namespace AnfWasm.Wasm

abbrev Word := Int32

/-- a word as an address -/
def address (w : Word) : Nat := w.toUInt32.toNat

theorem address_lt (w : Word) : address w < 2 ^ 32 := w.toUInt32.toNat_lt

theorem ofNat_address (w : Word) : Int32.ofNat (address w) = w := by
  have h : UInt32.ofNat w.toUInt32.toNat = w.toUInt32 := UInt32.ofNat_toNat
  show Int32.ofUInt32 (UInt32.ofNat w.toUInt32.toNat) = w
  rw [h]

theorem address_ofNat {n : Nat} (h : n < 2 ^ 32) : address (.ofNat n) = n := by
  show (UInt32.ofNat n).toNat = n
  exact UInt32.toNat_ofNat_of_lt' h

theorem address_ofNat_le (n : Nat) : address (.ofNat n) ≤ n := by
  show (UInt32.ofNat n).toNat ≤ n
  rw [UInt32.toNat_ofNat']
  exact Nat.mod_le _ _

structure Memory where
  size : Nat
  size_le : size ≤ 2 ^ 32
  bytes : Nat → UInt8

namespace Memory

/-- a page of zeros -/
def page : Memory := ⟨65536, by decide, fun _ => 0⟩

def word (M : Memory) (a : Nat) : Word :=
  .ofNat ((M.bytes a).toNat + 256 * (M.bytes (a + 1)).toNat + 65536 * (M.bytes (a + 2)).toNat
    + 16777216 * (M.bytes (a + 3)).toNat)

/-- the byte of a word at that place, the lowest byte at place zero -/
def byteOf (w : Word) (place : Nat) : UInt8 := .ofNat (address w / 256 ^ place)

def setWord (M : Memory) (a : Nat) (w : Word) : Memory :=
  { M with bytes := fun b => if a ≤ b ∧ b < a + 4 then byteOf w (b - a) else M.bytes b }

def load? (M : Memory) (a : Nat) : Option Word := if a + 4 ≤ M.size then some (M.word a) else none

def store? (M : Memory) (a : Nat) (w : Word) : Option Memory :=
  if a + 4 ≤ M.size then some (M.setWord a w) else none

/-- writes words one behind the other -/
def write (M : Memory) (a : Nat) : List Word → Memory
  | [] => M
  | w :: ws => (M.setWord a w).write (a + 4) ws

theorem toNat_byteOf (w : Word) (place : Nat) :
    (byteOf w place).toNat = address w / 256 ^ place % 256 := UInt8.toNat_ofNat'

theorem bytes_setWord (M : Memory) (a : Nat) (w : Word) {i : Nat} (hi : i < 4) :
    (M.setWord a w).bytes (a + i) = byteOf w i := by
  show (if a ≤ a + i ∧ a + i < a + 4 then byteOf w (a + i - a) else _) = _
  rw [if_pos (by omega), Nat.add_sub_cancel_left]

theorem bytes_setWord_other (M : Memory) {a b : Nat} (w : Word) (h : b < a ∨ a + 4 ≤ b) :
    (M.setWord a w).bytes b = M.bytes b := by
  show (if a ≤ b ∧ b < a + 4 then _ else M.bytes b) = _
  rw [if_neg (by omega)]

theorem word_setWord (M : Memory) (a : Nat) (w : Word) : (M.setWord a w).word a = w := by
  have h0 := M.bytes_setWord a w (show 0 < 4 by decide)
  have h1 := M.bytes_setWord a w (show 1 < 4 by decide)
  have h2 := M.bytes_setWord a w (show 2 < 4 by decide)
  have h3 := M.bytes_setWord a w (show 3 < 4 by decide)
  rw [Nat.add_zero] at h0
  unfold word
  rw [h0, h1, h2, h3, toNat_byteOf, toNat_byteOf, toNat_byteOf, toNat_byteOf]
  -- the four digits to the base 256 make up the word
  have hsum : address w / 256 ^ 0 % 256 + 256 * (address w / 256 ^ 1 % 256)
      + 65536 * (address w / 256 ^ 2 % 256) + 16777216 * (address w / 256 ^ 3 % 256)
      = address w := by
    have := address_lt w
    omega
  rw [hsum, ofNat_address]

theorem word_setWord_other (M : Memory) {a b : Nat} (w : Word) (h : b + 4 ≤ a ∨ a + 4 ≤ b) :
    (M.setWord a w).word b = M.word b := by
  unfold word
  rw [M.bytes_setWord_other w (by omega), M.bytes_setWord_other w (by omega),
    M.bytes_setWord_other w (by omega), M.bytes_setWord_other w (by omega)]

/-- a word is its bytes -/
theorem word_congr {M M' : Memory} {a : Nat} (h : ∀ i < 4, M.bytes (a + i) = M'.bytes (a + i)) :
    M.word a = M'.word a := by
  have h0 := h 0 (by decide)
  rw [Nat.add_zero] at h0
  rw [word, word, h0, h 1 (by decide), h 2 (by decide), h 3 (by decide)]

theorem size_write (M : Memory) (a : Nat) (ws : List Word) : (M.write a ws).size = M.size := by
  induction ws generalizing M a with
  | nil => rfl
  | cons w ws ih => rw [write, ih, setWord]

theorem bytes_write_other (M : Memory) {a b : Nat} {ws : List Word}
    (h : b < a ∨ a + 4 * ws.length ≤ b) : (M.write a ws).bytes b = M.bytes b := by
  induction ws generalizing M a with
  | nil => rfl
  | cons w ws ih =>
    rw [List.length_cons] at h
    rw [write, ih _ (by omega), bytes_setWord_other _ _ (by omega)]

theorem word_write_other (M : Memory) {a b : Nat} {ws : List Word}
    (h : b + 4 ≤ a ∨ a + 4 * ws.length ≤ b) : (M.write a ws).word b = M.word b := by
  induction ws generalizing M a with
  | nil => rfl
  | cons w ws ih =>
    rw [List.length_cons] at h
    rw [write, ih _ (by omega), word_setWord_other _ _ (by omega)]

theorem word_write (M : Memory) (a : Nat) {ws : List Word} {i : Nat} {w : Word}
    (h : ws[i]? = some w) : (M.write a ws).word (a + 4 * i) = w := by
  induction ws generalizing M a i with
  | nil => exact absurd h (by simp)
  | cons u ws ih =>
    cases i with
    | zero =>
      obtain rfl : u = w := by simpa using h
      rw [write, word_write_other _ (by omega)]
      exact M.word_setWord a u
    | succ i =>
      rw [List.getElem?_cons_succ] at h
      rw [write, ← ih _ (a + 4) h]
      congr 1
      omega

end Memory

end AnfWasm.Wasm
