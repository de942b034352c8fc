import Mathlib.Tactic.Ring

/-! # Reachability under a step guard

`Reach init step s` says that `s` is reached from an initial state by finitely
many labelled steps. `restrict guard step` keeps the steps whose guard holds in
the state before the step, so `Reach init (restrict guard step) s` ranges over
the states of the runs whose steps all meet the guard. -/

set_option autoImplicit false

namespace Lib

open List Option

variable {σ α : Type}

inductive Reach (init : σ → Prop) (step : σ → α → σ → Prop) : σ → Prop
  | start {s : σ} (initial : init s) : Reach init step s
  | next {s t : σ} {a : α} (before : Reach init step s) (move : step s a t) : Reach init step t

def restrict (guard : σ → α → Prop) (step : σ → α → σ → Prop) (s : σ) (a : α) (t : σ) : Prop :=
  guard s a ∧ step s a t

variable {init : σ → Prop} {step : σ → α → σ → Prop}

variable {s t : σ} {next : σ → α → Option σ}

/-- An invariant that holds initially and is kept by every step holds in every
reachable state. -/
theorem Reach.invariant (inv : σ → Prop) (initial : ∀ s, init s → inv s)
    (preserved : ∀ s a t, inv s → step s a t → inv t) (reached : Reach init step s) : inv s := by
  induction reached with
  | start h => exact initial _ h
  | next _ move ih => exact preserved _ _ _ ih move

/-- Runs given by a list of actions and a partial step function are reachable. -/
theorem Reach.of_actions (actions : List α)
    (sound : ∀ a ∈ actions, ∀ s t, next s a = some t → step s a t) (reached : Reach init step s)
    (run : actions.foldlM next s = some t) : Reach init step t := by
  induction actions generalizing s t with
  | nil => exact some.inj run ▸ reached
  | cons a rest ih =>
    simp only [foldlM_cons, bind_eq_bind] at run
    obtain ⟨u, first, others⟩ := bind_eq_some_iff.mp run
    have later := fun b member => sound b (mem_cons_of_mem a member)
    exact ih later (reached.next (sound a mem_cons_self s u first)) others

theorem Reach.of_foldlM (sound : ∀ s a t, next s a = some t → step s a t) (actions : List α)
    (reached : Reach init step s) (run : actions.foldlM next s = some t) : Reach init step t :=
  .of_actions actions (fun a _ s t => sound s a t) reached run

theorem exists_of_any (found : Option σ) (fact : σ → Prop) [DecidablePred fact]
    (holds : found.any (fun s => decide (fact s)) = true) : ∃ s, found = some s ∧ fact s := by
  cases found with
  | none => cases holds
  | some s => exact ⟨s, rfl, of_decide_eq_true holds⟩

theorem Reach.exists_of_run (init : σ → Prop) (next : σ → α → Option σ)
    (sound : ∀ s a t, next s a = some t → step s a t) {start : σ} (initial : init start)
    (actions : List α) (fact : σ → Prop) [DecidablePred fact]
    (holds : (actions.foldlM next start).any (fun s => decide (fact s)) = true) :
    ∃ s, Reach init step s ∧ fact s := by
  obtain ⟨s, run, true⟩ := exists_of_any _ fact holds
  exact ⟨s, .of_foldlM sound actions (.start initial) run, true⟩

/-- A run that checks the guard of each action before it takes it. -/
theorem Reach.exists_of_guarded_run (init : σ → Prop) (next : σ → α → Option σ)
    (guard : σ → α → Prop) [∀ s a, Decidable (guard s a)]
    (sound : ∀ s a t, next s a = some t → step s a t) {start : σ} (initial : init start)
    (actions : List α) (fact : σ → Prop) [DecidablePred fact]
    (holds : (actions.foldlM (fun s a => if guard s a then next s a else none) start).any
      (fun s => decide (fact s)) = true) :
    ∃ s, Reach init (restrict guard step) s ∧ fact s := by
  refine Reach.exists_of_run init _ (fun s a t move => ?_) initial actions fact holds
  split at move
  · rename_i meets
    exact ⟨meets, sound s a t move⟩
  · cases move

end Lib
