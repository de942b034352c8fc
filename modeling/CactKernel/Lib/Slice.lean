import Mathlib.Tactic.Ring

/-! # Slices with bounds and sums that are checked

The pieces of a list are taken and written through ranges, and a range that does not lie
inside has no answer; neither has a sum that does not fit in 32 bits. -/

set_option autoImplicit false

def Lib.checkedAdd (a b : Nat) : Option Nat := if a + b < 2 ^ 32 then some (a + b) else none

namespace Lib.Slice

open List

variable {α : Type}

/-- `&b[lo..hi]`. -/
def range (b : List α) (lo hi : Nat) : Option (List α) :=
  if lo ≤ hi ∧ hi ≤ b.length then some ((b.take hi).drop lo) else none

/-- `out[start..start + src.len()].copy_from_slice(src)`. -/
def copy (out : List α) (start : Nat) (src : List α) : Option (List α) :=
  if start + src.length ≤ out.length then
    some (out.take start ++ src ++ out.drop (start + src.length))
  else none

/-- `b[from..].iter().position(p)`, counted from the start of `b`. -/
def position (b : List α) (start : Nat) (p : α → Bool) : Option (Option Nat) :=
  if start ≤ b.length then some (((b.drop start).findIdx? p).map fun n => start + n) else none

variable {start : Nat}

variable {b src out out' : List α}

theorem take_drop_append {n : Nat} (c : List α) (inside : start + n ≤ b.length) :
    ((b ++ c).drop start).take n = (b.drop start).take n := by
  rw [drop_append_of_le_length (by omega)]
  apply take_append_of_le_length
  rw [length_drop]
  omega

theorem copy_append {a : List α} (c : List α) (length : src.length = b.length) :
    copy (a ++ (b ++ c)) a.length src = some (a ++ (src ++ c)) := by
  rw [copy, if_pos]
  · rw [take_left, ← append_assoc a b c, length, ← length_append, drop_left,
      append_assoc]
  · simp only [length_append]
    omega

theorem length_copy (copied : copy out start src = some out') : out'.length = out.length := by
  rw [copy] at copied
  split at copied
  · cases copied
    simp only [length_append, length_take, length_drop]
    omega
  · cases copied

theorem take_copy (inside : start ≤ out.length) (copied : copy out start src = some out') :
    out'.take start = out.take start := by
  rw [copy] at copied
  split at copied
  · rw [← Option.some.inj copied, append_assoc, take_left']
    rw [length_take]
    omega
  · cases copied

theorem findIdx?_append_cons {p : α → Bool} {line : List α} {x : α} (rest : List α)
    (before : ∀ y ∈ line, p y = false) (here : p x = true) :
    (line ++ x :: rest).findIdx? p = some line.length := by
  induction line with
  | nil => rw [nil_append, findIdx?_cons, here]; rfl
  | cons y line ih =>
    have first : p y = false := before y mem_cons_self
    have later := ih fun z member => before z (mem_cons_of_mem y member)
    rw [cons_append, findIdx?_cons, first, later]
    rfl

end Lib.Slice
