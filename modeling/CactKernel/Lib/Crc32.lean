import Mathlib.Data.BitVec

/-! # CRC-32, bit by bit and by table

The reflected CRC of a byte string for any polynomial: eight steps per byte, each of
which shifts the remainder by one bit. A step is linear in exclusive or, so that a
table of the 256 remainders of single bytes computes the same function. -/

set_option autoImplicit false

namespace Lib.Crc32

open BitVec

variable (poly : BitVec 32)

def bitStep (crc : BitVec 32) : BitVec 32 :=
  if crc.getLsbD 0 then crc >>> 1 ^^^ poly else crc >>> 1

def bitSteps : Nat → BitVec 32 → BitVec 32
  | 0, crc => crc
  | n + 1, crc => bitSteps n (bitStep poly crc)

def byteStep (crc : BitVec 32) (byte : BitVec 32) : BitVec 32 := bitSteps poly 8 (crc ^^^ byte)

def tableStep (table : Nat → BitVec 32) (crc : BitVec 32) (byte : BitVec 32) : BitVec 32 :=
  table ((crc ^^^ byte) &&& 0xFF#32).toNat ^^^ crc >>> 8

theorem bitStep_xor (x y : BitVec 32) :
    bitStep poly (x ^^^ y) = bitStep poly x ^^^ bitStep poly y := by
  simp only [bitStep, getLsbD_xor, ushiftRight_xor_distrib]
  have cancel : ∀ a b : BitVec 32, a ^^^ b = a ^^^ poly ^^^ (b ^^^ poly) := by
    intro a b
    rw [BitVec.xor_assoc a poly, ← BitVec.xor_assoc poly b, BitVec.xor_comm poly b,
      BitVec.xor_assoc b, BitVec.xor_self, BitVec.xor_zero]
  cases x.getLsbD 0 <;> cases y.getLsbD 0
  · rfl
  · exact BitVec.xor_assoc _ _ _
  · change x >>> 1 ^^^ y >>> 1 ^^^ poly = x >>> 1 ^^^ poly ^^^ y >>> 1
    rw [BitVec.xor_assoc, BitVec.xor_comm (y >>> 1), ← BitVec.xor_assoc]
  · exact cancel _ _

theorem bitSteps_xor (n : Nat) : ∀ x y : BitVec 32,
    bitSteps poly n (x ^^^ y) = bitSteps poly n x ^^^ bitSteps poly n y := by
  induction n with
  | zero => exact fun _ _ => rfl
  | succ n ih =>
    intro x y
    rw [bitSteps, bitStep_xor, ih]
    rfl

theorem bitSteps_high (n : Nat) : ∀ x : BitVec 32, (∀ i < n, x.getLsbD i = false) →
    bitSteps poly n x = x >>> n := by
  induction n with
  | zero =>
    intro x _
    exact (ushiftRight_zero ..).symm
  | succ n ih =>
    intro x low
    have first : x.getLsbD 0 = false := low 0 n.succ_pos
    rw [bitSteps, bitStep, first, if_neg (by decide), ih, Nat.add_comm, shiftRight_add]
    intro i inside
    rw [getLsbD_ushiftRight]
    exact low (1 + i) (by omega)

theorem split_low (x : BitVec 32) : x = (x &&& 0xFF#32) ^^^ (x &&& ~~~0xFF#32) := by
  apply eq_of_getLsbD_eq
  intro i _
  rw [getLsbD_xor, getLsbD_and, getLsbD_and, getLsbD_not]
  cases x.getLsbD i <;> cases (0xFF#32).getLsbD i <;> simp [*]

theorem byteStep_split (crc byte : BitVec 32) (small : byte >>> 8 = 0#32) :
    byteStep poly crc byte = bitSteps poly 8 ((crc ^^^ byte) &&& 0xFF#32) ^^^ crc >>> 8 := by
  have mask : ∀ i < 8, (~~~0xFF#32).getLsbD i = false := by decide
  have high :
      bitSteps poly 8 ((crc ^^^ byte) &&& ~~~0xFF#32) = ((crc ^^^ byte) &&& ~~~0xFF#32) >>> 8 := by
    apply bitSteps_high
    intro i inside
    rw [getLsbD_and, mask i inside, Bool.and_false]
  have upper : (~~~0xFF#32) >>> 8 = 0xFFFFFF#32 := by decide
  have fits : (crc >>> 8) &&& 0xFFFFFF#32 = crc >>> 8 := by
    apply eq_of_getLsbD_eq
    intro i inside
    have ones : ∀ i < 32, (0xFFFFFF#32).getLsbD i = decide (i < 24) := by decide
    rw [getLsbD_and, getLsbD_ushiftRight, ones i inside]
    by_cases low : i < 24
    · rw [decide_eq_true low, Bool.and_true]
    · rw [getLsbD_of_ge _ _ (by omega), Bool.false_and]
  rw [byteStep, split_low (crc ^^^ byte), bitSteps_xor, ← split_low, high,
    ushiftRight_and_distrib, ushiftRight_xor_distrib, small, xor_zero, upper,
    fits]

/-- A table of the remainders of single bytes computes the step. -/
theorem tableStep_eq {table : Nat → BitVec 32}
    (remainders : ∀ i < 256, table i = bitSteps poly 8 (BitVec.ofNat 32 i)) (crc byte : BitVec 32)
    (small : byte >>> 8 = 0#32) : tableStep table crc byte = byteStep poly crc byte := by
  have bound : ((crc ^^^ byte) &&& 0xFF#32).toNat < 256 := by
    rw [toNat_and]
    exact Nat.lt_of_le_of_lt Nat.and_le_right (by decide)
  rw [tableStep, remainders _ bound, ofNat_toNat, setWidth_eq,
    byteStep_split poly crc byte small]

end Lib.Crc32
