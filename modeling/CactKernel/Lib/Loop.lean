import Mathlib.Tactic.Ring

/-! # Counted loops

`countTo body n` is `for i in 0..n`; `countWhile body n` is the same loop with a
body that may leave it, and says whether all `n` rounds were made. -/

set_option autoImplicit false

namespace Lib

open Nat

variable {σ : Type}

def countTo (body : Nat → σ → σ) : Nat → σ → σ
  | 0, s => s
  | n + 1, s => body n (countTo body n s)

def countWhile (body : Nat → σ → Bool × σ) : Nat → σ → Bool × σ
  | 0, s => (true, s)
  | n + 1, s =>
    match countWhile body n s with
    | (true, t) => body n t
    | (false, t) => (false, t)

theorem countTo_invariant {body : Nat → σ → σ} (inv : Nat → σ → Prop) {n : Nat} {s : σ}
    (start : inv 0 s) (kept : ∀ i t, i < n → inv i t → inv (i + 1) (body i t)) :
    inv n (countTo body n s) := by
  induction n with
  | zero => exact start
  | succ n ih =>
    have before : inv n (countTo body n s) :=
      ih fun i t small holds => kept i t (lt_succ_of_lt small) holds
    exact kept n _ (lt_succ_self n) before

/-- The invariant of a loop that was left holds at the round where that happened. -/
theorem countWhile_invariant {f : Nat → σ → Bool × σ} (inv left : Nat → σ → Prop) {n : Nat} {s : σ}
    (start : inv 0 s)
    (kept : ∀ i t, i < n → inv i t →
      if (f i t).1 then inv (i + 1) (f i t).2 else left i (f i t).2) :
    if (countWhile f n s).1 then inv n (countWhile f n s).2
    else ∃ i < n, left i (countWhile f n s).2 := by
  induction n with
  | zero => exact start
  | succ n ih =>
    have before := ih fun i t small holds => kept i t (lt_succ_of_lt small) holds
    rw [countWhile]
    split
    · rename_i t full
      rw [full] at before
      have last := kept n t (lt_succ_self n) before
      split at last
      · rename_i whole
        rw [if_pos whole]
        exact last
      · rename_i partly
        rw [if_neg partly]
        exact ⟨n, lt_succ_self n, last⟩
    · rename_i t broken
      rw [broken] at before
      obtain ⟨i, small, holds⟩ := before
      exact ⟨i, lt_succ_of_lt small, holds⟩

/-- A loop that made all its rounds made each of them. -/
theorem countWhile_whole {f : Nat → σ → Bool × σ} {n : Nat} {s : σ}
    (whole : (countWhile f n s).1 = true) {k : Nat} (low : k ≤ n) :
    (countWhile f k s).1 = true := by
  induction n with
  | zero => rwa [le_zero.mp low]
  | succ n ih =>
    rcases le_succ_iff.mp low with less | rfl
    · refine ih ?_ less
      rw [countWhile] at whole
      split at whole
      · rename_i full
        rw [full]
      · cases whole
    · exact whole

end Lib
