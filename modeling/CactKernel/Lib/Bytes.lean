import Mathlib.Tactic.Ring

/-! # Byte strings with little-endian numbers

`encode w n` is `n` in `w` bytes, `slice bytes off n` the `n` bytes from `off` on, and
`peek memory off n` the same read out of a memory. A piece of a concatenation is found
at the length of what stands before it. -/

set_option autoImplicit false

namespace Lib.Bytes

open List

def encode : Nat → Nat → List UInt8
  | 0, _ => []
  | width + 1, n => .ofNat n :: encode width (n / 256)

def decode : List UInt8 → Nat
  | [] => 0
  | byte :: bytes => byte.toNat + 256 * decode bytes

@[simp] theorem length_encode (width n : Nat) : (encode width n).length = width := by
  induction width generalizing n with
  | zero => rfl
  | succ width ih => rw [encode, length_cons, ih]

theorem decode_encode (width : Nat) : ∀ {n : Nat}, n < 256 ^ width →
    decode (encode width n) = n := by
  induction width with
  | zero =>
    intro n small
    rw [Nat.pow_zero] at small
    rw [encode, decode]
    omega
  | succ width ih =>
    intro n small
    have smaller : n / 256 < 256 ^ width := by
      rw [Nat.pow_succ] at small
      exact Nat.div_lt_of_lt_mul (by rwa [Nat.mul_comm])
    rw [encode, decode, ih smaller, UInt8.toNat_ofNat']
    omega

theorem decode_lt (bytes : List UInt8) : decode bytes < 256 ^ bytes.length := by
  induction bytes with
  | nil => decide
  | cons byte bytes ih =>
    have small := byte.toNat_lt
    rw [decode, length_cons, Nat.pow_succ]
    omega

/-! ## Pieces -/

def slice (bytes : List UInt8) (off n : Nat) : List UInt8 := (bytes.drop off).take n

def peek (memory : Nat → UInt8) (off n : Nat) : List UInt8 :=
  (List.range n).map fun i => memory (off + i)

variable {off n : Nat}

variable {bytes before after : List UInt8}

theorem length_slice (inside : off + n ≤ bytes.length) : (slice bytes off n).length = n := by
  rw [slice, length_take, length_drop]
  omega

theorem slice_append {piece : List UInt8} (start : before.length = off)
    (length : piece.length = n) : slice (before ++ piece ++ after) off n = piece := by
  rw [slice, append_assoc, ← start, drop_left, ← length, take_left]

/-- A memory that holds the byte string from address `0` on. -/
def Holds (memory : Nat → UInt8) (bytes : List UInt8) : Prop :=
  ∀ i byte, bytes[i]? = some byte → memory i = byte

theorem peek_eq_slice {memory : Nat → UInt8} (holds : Holds memory bytes)
    (inside : off + n ≤ bytes.length) : peek memory off n = slice bytes off n := by
  apply ext_getElem?
  intro i
  rw [peek, slice, getElem?_map, getElem?_take]
  by_cases low : i < n
  · have there : bytes[off + i]? = some (bytes[off + i]) := getElem?_eq_getElem (by omega)
    rw [if_pos low, getElem?_range low, getElem?_drop, there]
    exact congrArg some (holds _ _ there)
  · rw [if_neg low, getElem?_eq_none (by rw [length_range]; omega)]
    rfl

theorem decode_slice {width : Nat} (start : before.length = off) (small : n < 256 ^ width) :
    decode (slice (before ++ encode width n ++ after) off width) = n := by
  rw [slice_append start (length_encode width n), decode_encode width small]

end Lib.Bytes
