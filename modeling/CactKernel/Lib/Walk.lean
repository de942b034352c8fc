import Mathlib.Tactic.Ring

/-! # Loops that follow pointers

`walk body fuel h s` visits nodes from `h` on. At each node the body changes
the state and names the node to go on with; the loop ends at a null pointer.
Without an invariant nothing bounds the loop, so it runs on fuel: `none` means
that the fuel is used up, or that the body itself stopped. -/

set_option autoImplicit false

namespace Lib

variable {α σ : Type}

def walk (body : α → σ → Option (Option α × σ)) : Nat → Option α → σ → Option σ
  | 0, _, _ => none
  | _ + 1, none, s => some s
  | fuel + 1, some a, s => (body a s).bind fun r => walk body fuel r.1 r.2

theorem walk_invariant {body : α → σ → Option (Option α × σ)} (inv : Option α → σ → Prop)
    (kept : ∀ a s h t, inv (some a) s → body a s = some (h, t) → inv h t) :
    ∀ (fuel : Nat) {h : Option α} {s t : σ}, inv h s → walk body fuel h s = some t →
      inv none t := by
  intro fuel
  induction fuel with
  | zero => intro h s t _ run; simp [walk] at run
  | succ fuel ih =>
    intro h s t holds run
    cases h with
    | none =>
      simp only [walk, Option.some.injEq] at run
      exact run ▸ holds
    | some a =>
      simp only [walk] at run
      obtain ⟨r, first, rest⟩ := Option.bind_eq_some_iff.mp run
      exact ih (kept a s r.1 r.2 holds first) rest

/-- A walk returns when an index that bounds the nodes ahead goes down at every node. -/
theorem walk_total (body : α → σ → Option (Option α × σ)) (inv : Nat → Option α → σ → Prop)
    (ahead : ∀ a s, ¬ inv 0 (some a) s)
    (kept : ∀ n a s, inv (n + 1) (some a) s → ∃ h t, body a s = some (h, t) ∧ inv n h t) :
    ∀ (n : Nat) {h : Option α} {s : σ}, inv n h s → ∃ t, walk body (n + 1) h s = some t := by
  intro n
  induction n with
  | zero =>
    intro h s holds
    cases h with
    | none => exact ⟨s, rfl⟩
    | some a => exact absurd holds (ahead a s)
  | succ n ih =>
    intro h s holds
    cases h with
    | none => exact ⟨s, rfl⟩
    | some a =>
      obtain ⟨h', t, first, next⟩ := kept n a s holds
      obtain ⟨u, rest⟩ := ih next
      exact ⟨u, by simpa [walk, first] using rest⟩

end Lib
