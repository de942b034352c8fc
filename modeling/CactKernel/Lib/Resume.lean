import Mathlib.Tactic.Ring

/-! # Scanners that wait for more input

A scanner looks at the input that has arrived and either waits, goes on, or stops with a
result. If what it does is not changed by input that arrives later, then it does not
matter where the input was cut: what it settles on after all of the input is what it
settles on when it is resumed after each piece. -/

set_option autoImplicit false

namespace Lib

inductive Outcome (σ ρ : Type)
  | wait
  | next (s : σ)
  | stop (r : ρ)

structure Resume (α σ ρ : Type) where
  step : List α → σ → Outcome σ ρ
  stable : ∀ {b : List α} {s : σ}, step b s ≠ .wait → ∀ c, step (b ++ c) s = step b s

namespace Resume

variable {α σ ρ : Type} (m : Resume α σ ρ)

/-- From the state the scanner ends up in a state in which it waits, or stops. -/
inductive Settles (b : List α) : σ → σ ⊕ ρ → Prop
  | wait {s : σ} (waits : m.step b s = .wait) : Settles b s (.inl s)
  | stop {s : σ} {r : ρ} (stops : m.step b s = .stop r) : Settles b s (.inr r)
  | next {s t : σ} {e : σ ⊕ ρ} (goes : m.step b s = .next t) (rest : Settles b t e) :
      Settles b s e

variable {m} {b c : List α} {s t : σ} {r : ρ} {e e' : σ ⊕ ρ}

theorem Settles.unique (first : m.Settles b s e) (second : m.Settles b s e') : e = e' := by
  induction first with
  | wait waits =>
    cases second with
    | wait _ => rfl
    | stop stops => rw [waits] at stops; cases stops
    | next goes _ => rw [waits] at goes; cases goes
  | stop stops =>
    cases second with
    | wait waits => rw [stops] at waits; cases waits
    | stop stops' => rw [stops] at stops'; cases stops'; rfl
    | next goes _ => rw [stops] at goes; cases goes
  | next goes _ ih =>
    cases second with
    | wait waits => rw [goes] at waits; cases waits
    | stop stops => rw [goes] at stops; cases stops
    | next goes' rest' =>
      rw [goes] at goes'
      cases goes'
      exact ih rest'

/-- A scanner that has stopped is not moved by more input. -/
theorem Settles.append (stopped : m.Settles b s e) (c : List α) :
    (∀ {r : ρ}, e = .inr r → m.Settles (b ++ c) s (.inr r)) ∧
    ∀ {t : σ} {e' : σ ⊕ ρ}, e = .inl t → m.Settles (b ++ c) t e' → m.Settles (b ++ c) s e' := by
  induction stopped with
  | wait _ =>
    refine ⟨nofun, ?_⟩
    intro t e' same rest
    cases same
    exact rest
  | @stop s r stops =>
    refine ⟨?_, nofun⟩
    intro r' same
    cases same
    refine .stop ?_
    rw [m.stable (by rw [stops]; exact nofun), stops]
  | @next s t e goes _ ih =>
    have again : m.step (b ++ c) s = .next t := by
      rw [m.stable (by rw [goes]; exact nofun), goes]
    exact ⟨fun same => .next again (ih.1 same), fun same rest => .next again (ih.2 same rest)⟩

theorem Settles.stopped (stops : m.Settles b s (.inr r)) (c : List α) :
    m.Settles (b ++ c) s (.inr r) :=
  (stops.append c).1 rfl

theorem Settles.resumed (waits : m.Settles b s (.inl t)) (rest : m.Settles (b ++ c) t e) :
    m.Settles (b ++ c) s e :=
  (waits.append c).2 rfl rest

end Resume

end Lib
