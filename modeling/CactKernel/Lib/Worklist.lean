import Mathlib.Tactic.Ring

/-! # Worklists

A function that calls itself from several places, through other functions, runs
here on a list of the calls still to be made. One call is made at a time; the
calls that it makes itself come before the rest. `settle` makes them all, on
fuel; `settle_total` gives the fuel when a weight of list and state goes down at
every call. -/

set_option autoImplicit false

namespace Lib

variable {ω σ : Type}

def settle (call : ω → σ → List ω × σ) : Nat → List ω → σ → Option σ
  | _, [], s => some s
  | 0, _ :: _, _ => none
  | fuel + 1, w :: rest, s => settle call fuel ((call w s).1 ++ rest) (call w s).2

theorem settle_invariant {call : ω → σ → List ω × σ} (inv : List ω → σ → Prop)
    (kept : ∀ w rest s, inv (w :: rest) s → inv ((call w s).1 ++ rest) (call w s).2) :
    ∀ (fuel : Nat) {todo : List ω} {s t : σ}, inv todo s → settle call fuel todo s = some t →
      inv [] t := by
  intro fuel
  induction fuel with
  | zero =>
    intro todo s t holds run
    cases todo with
    | nil =>
      simp only [settle, Option.some.injEq] at run
      exact run ▸ holds
    | cons w rest => simp [settle] at run
  | succ fuel ih =>
    intro todo s t holds run
    cases todo with
    | nil =>
      simp only [settle, Option.some.injEq] at run
      exact run ▸ holds
    | cons w rest => exact ih (kept w rest s holds) run

theorem settle_total {call : ω → σ → List ω × σ} (weight : List ω → σ → Nat)
    (less : ∀ w rest s, weight ((call w s).1 ++ rest) (call w s).2 < weight (w :: rest) s) :
    ∀ (fuel : Nat) {todo : List ω} {s : σ}, weight todo s ≤ fuel →
      ∃ t, settle call fuel todo s = some t := by
  intro fuel
  induction fuel with
  | zero =>
    intro todo s enough
    cases todo with
    | nil => exact ⟨s, rfl⟩
    | cons w rest =>
      have smaller := less w rest s
      omega
  | succ fuel ih =>
    intro todo s enough
    cases todo with
    | nil => exact ⟨s, rfl⟩
    | cons w rest =>
      have smaller := less w rest s
      exact ih (by omega)

end Lib
