import CactKernel.Sync.Object
import CactKernel.Lib.Reach

/-! # Semaphores under every interleaving

Any number of tasks call `down` and `up` on one semaphore. A task inside
`down` stands at a program point; `up` is one step, since it holds the
scheduler lock and the guard throughout. A task that sleeps in `down` goes on
when it is dispatched, and also when `schedule` found nobody else to run.

`ups` and `downs` count completed calls, `handedOver` the calls of `up` that
found a waiter. Such a call wakes the waiter and leaves the count alone, and
the woken `down` looks for a count again: its token is gone. -/

set_option autoImplicit false

namespace CactKernel.Sync

open Lib List Option Reach

inductive DownPoint
  | outside
  | load
  | compareExchange (curVal : Int)
  | locked
  | yielded
  deriving DecidableEq, Repr

structure SemaphoreState where
  sem : Semaphore
  point : Tid → DownPoint
  state : Tid → TaskState
  ups : Nat
  downs : Nat
  handedOver : Nat

inductive SemaphoreAction
  | down (t : Tid)
  | load (t : Tid)
  | compareExchange (t : Tid)
  | locked (t : Tid)
  | dispatch (t : Tid)
  | noSwitch (t : Tid)
  | wakeElsewhere (t : Tid)
  | up (t : Tid)

/-- The task that takes the step. -/
def SemaphoreAction.task : SemaphoreAction → Tid
  | .down t | .load t | .compareExchange t | .locked t | .dispatch t | .noSwitch t
  | .wakeElsewhere t | .up t => t

namespace SemaphoreState

def init (val : Int) : SemaphoreState where
  sem := semaInit val
  point := fun _ => .outside
  state := fun _ => .running
  ups := 0
  downs := 0
  handedOver := 0

def moveTo (s : SemaphoreState) (t : Tid) (p : DownPoint) : SemaphoreState :=
  { s with point := Function.update s.point t p }

def setState (s : SemaphoreState) (t : Tid) (v : TaskState) : SemaphoreState :=
  { s with state := Function.update s.state t v }

/-- The locked section of `down` by task `t`. -/
def lockedDown (s : SemaphoreState) (t : Tid) : SemaphoreState :=
  match s.sem.downLocked (some t) with
  | (.sleep, sem) => ({ s with sem := sem }.setState t .sleeping).moveTo t .yielded
  | (.retry, sem) => { s with sem := sem }.moveTo t .load
  | (.spin, sem) => { s with sem := sem }.moveTo t .load

def up (s : SemaphoreState) : SemaphoreState :=
  match s.sem.upLocked with
  | (some woken, sem) =>
    let s := { s with sem := sem, ups := s.ups + 1, handedOver := s.handedOver + 1 }
    if s.state woken = .sleeping then s.setState woken .ready else s
  | (none, sem) => { s with sem := sem, ups := s.ups + 1 }

def step (s : SemaphoreState) : SemaphoreAction → Option SemaphoreState
  | .down t => if s.point t = .outside then some (s.moveTo t .load) else none
  | .load t =>
    if s.point t = .load then
      some (s.moveTo t (if 0 < s.sem.count then .compareExchange s.sem.count else .locked))
    else none
  | .compareExchange t =>
    match s.point t with
    | .compareExchange curVal =>
      if s.sem.count = curVal then
        some { s.moveTo t .outside with
          sem := { s.sem with count := curVal - 1 }
          downs := s.downs + 1 }
      else some (s.moveTo t .load)
    | _ => none
  | .locked t => if s.point t = .locked then some (s.lockedDown t) else none
  | .dispatch t =>
    if s.point t = .yielded ∧ s.state t = .ready then
      some ((s.setState t .running).moveTo t .load)
    else none
  | .noSwitch t => if s.point t = .yielded then some (s.moveTo t .load) else none
  | .wakeElsewhere t =>
    if s.state t = .sleeping then some (s.setState t .ready) else none
  | .up t => if s.point t = .outside then some s.up else none

end SemaphoreState

def SemaphoreStep (s : SemaphoreState) (a : SemaphoreAction) (t : SemaphoreState) : Prop :=
  s.step a = some t

def Started (val : Int) (s : SemaphoreState) : Prop := s = SemaphoreState.init val

def AsleepInDown (s : SemaphoreState) (t : Tid) : Prop :=
  s.point t = .yielded ∧ s.state t = .sleeping

/-- No task is in the middle of an operation; it may sleep in `down`. -/
def Quiescent (s : SemaphoreState) : Prop :=
  ∀ t, s.point t = .outside ∨ AsleepInDown s t

/-- Tokens are conserved, and nobody sleeps while the calls of `up` allow one more `down`. -/
def TokenLaw (val : Int) (s : SemaphoreState) : Prop :=
  val + s.ups = s.sem.count + s.downs ∧
    ∀ t, AsleepInDown s t → ¬ (s.downs + 1 : Int) ≤ val + s.ups

/-- The condition on a call of `up`: nobody waits, and the count does not wrap. -/
def UpUnawaited (s : SemaphoreState) : SemaphoreAction → Prop
  | .up _ => s.sem.waiters = [] ∧ s.sem.count < 2 ^ 31 - 1
  | _ => True

/-! ## What a step does to tokens and waiters -/

variable {a : SemaphoreAction}

section Steps

variable {s s' : SemaphoreState} {val : Int}

theorem wrapI32_succ {n : Int} (low : - 2 ^ 31 ≤ n) (high : n < 2 ^ 31 - 1) :
    wrapI32 (n + 1) = n + 1 := by
  unfold wrapI32
  omega

/-- What holds along every run in which no count wraps. -/
structure Accounted (val : Int) (s : SemaphoreState) : Prop where
  tokens : val + s.ups = s.sem.count + s.downs + s.handedOver
  low : - 2 ^ 31 ≤ s.sem.count
  /-- A `compare_exchange` expects a positive count. -/
  expected : ∀ t v, s.point t = .compareExchange v → 0 < v

theorem moveTo_point (s : SemaphoreState) (t u : Tid) (p : DownPoint) :
    (s.moveTo t p).point u = if u = t then p else s.point u := by
  unfold SemaphoreState.moveTo
  by_cases same : u = t
  · subst same
    simp
  · simp [same]

theorem Accounted.moveTo (accounted : Accounted val s) (t : Tid) {p : DownPoint}
    (expected : ∀ v, p = .compareExchange v → 0 < v) : Accounted val (s.moveTo t p) := by
  refine ⟨accounted.tokens, accounted.low, ?_⟩
  intro u v known
  rw [moveTo_point] at known
  split at known
  · exact expected v known
  · exact accounted.expected u v known

theorem downLocked_count (sem : Semaphore) (cur : Option Tid) :
    (sem.downLocked cur).2.count = sem.count := by
  unfold Semaphore.downLocked
  split
  · rfl
  cases cur with
  | none => rfl
  | some t =>
    dsimp only
    split <;> rfl

theorem Accounted.lockedDown (accounted : Accounted val s) (t : Tid) :
    Accounted val (s.lockedDown t) := by
  have count := downLocked_count s.sem (some t)
  unfold SemaphoreState.lockedDown
  generalize s.sem.downLocked (some t) = r at count
  obtain ⟨outcome, sem⟩ := r
  have kept : Accounted val { s with sem := sem } := by
    refine ⟨?_, ?_, accounted.expected⟩
    · rw [count]
      exact accounted.tokens
    · rw [count]
      exact accounted.low
  cases outcome with
  | sleep =>
    have asleep : Accounted val ({ s with sem := sem }.setState t .sleeping) :=
      ⟨kept.tokens, kept.low, kept.expected⟩
    exact asleep.moveTo t (by simp)
  | retry | spin => exact kept.moveTo t (by simp)

theorem Accounted.up (accounted : Accounted val s)
    (room : s.sem.waiters = [] → s.sem.count < 2 ^ 31 - 1) : Accounted val s.up := by
  have tokens := accounted.tokens
  unfold SemaphoreState.up Semaphore.upLocked
  cases waiting : s.sem.waiters with
  | nil =>
    have next := wrapI32_succ accounted.low (room waiting)
    refine ⟨?_, ?_, accounted.expected⟩
    · simp only [next]
      omega
    · simp only [next]
      have := accounted.low
      omega
  | cons woken rest =>
    dsimp only
    split
    · refine ⟨?_, accounted.low, accounted.expected⟩
      simp only [SemaphoreState.setState]
      omega
    · refine ⟨?_, accounted.low, accounted.expected⟩
      dsimp only
      omega

/-- An `up` that finds no waiter has room in the count. -/
def UpFits (s : SemaphoreState) : SemaphoreAction → Prop
  | .up _ => s.sem.waiters = [] → s.sem.count < 2 ^ 31 - 1
  | _ => True

/-- What a step does. -/
inductive Stepped (s : SemaphoreState) : SemaphoreAction → SemaphoreState → Prop
  | moves {a : SemaphoreAction} {p : DownPoint} (awake : p ≠ .yielded)
      (positive : ∀ v, p = .compareExchange v → 0 < v) : Stepped s a (s.moveTo a.task p)
  | takes {t : Tid} {v : Int} (known : s.point t = .compareExchange v)
      (unchanged : s.sem.count = v) : Stepped s (.compareExchange t) { s.moveTo t .outside with
        sem := { s.sem with count := v - 1 }
        downs := s.downs + 1 }
  | locked (t : Tid) : Stepped s (.locked t) (s.lockedDown t)
  | dispatched (t : Tid) : Stepped s (.dispatch t) ((s.setState t .running).moveTo t .load)
  | woken (t : Tid) : Stepped s (.wakeElsewhere t) (s.setState t .ready)
  | raised (t : Tid) : Stepped s (.up t) s.up

theorem step_cases (run : s.step a = some s') : Stepped s a s' := by
  cases a with
  | compareExchange t =>
    simp only [SemaphoreState.step] at run
    split at run
    · rename_i v known
      split at run
      · rename_i unchanged
        cases run
        exact .takes known unchanged
      · cases run
        exact .moves (by simp) (by simp)
    · cases run
  | _ =>
    simp only [SemaphoreState.step, ite_none_right_eq_some] at run
    obtain ⟨-, run⟩ := run
    cases run
    constructor <;> grind

theorem step_accounted (accounted : Accounted val s) (fits : UpFits s a)
    (run : s.step a = some s') : Accounted val s' := by
  cases step_cases run with
  | moves awake positive => exact accounted.moveTo _ positive
  | @takes t v known unchanged =>
    have positive := accounted.expected t v known
    have moved := accounted.moveTo t (p := .outside) (by simp)
    have tokens := accounted.tokens
    refine ⟨?_, ?_, moved.expected⟩
    · dsimp only [SemaphoreState.moveTo]
      omega
    · dsimp only
      omega
  | locked t => exact accounted.lockedDown t
  | dispatched t =>
    have running : Accounted val (s.setState t .running) :=
      ⟨accounted.tokens, accounted.low, accounted.expected⟩
    exact running.moveTo t (by simp)
  | woken t => exact ⟨accounted.tokens, accounted.low, accounted.expected⟩
  | raised t => exact accounted.up fits

/-- What holds while every `up` so far has found no waiter: whoever waits found no count, and
there is none. -/
structure Unawaited (s : SemaphoreState) : Prop where
  none : s.handedOver = 0
  empty : s.sem.waiters ≠ [] → s.sem.count ≤ 0
  listed : ∀ t, s.point t = .yielded → t ∈ s.sem.waiters

theorem Unawaited.moveTo (unawaited : Unawaited s) (t : Tid) {p : DownPoint}
    (awake : p ≠ .yielded) : Unawaited (s.moveTo t p) := by
  refine ⟨unawaited.none, unawaited.empty, ?_⟩
  intro u known
  rw [moveTo_point] at known
  split at known
  · exact absurd known awake
  · exact unawaited.listed u known

theorem Unawaited.setState (unawaited : Unawaited s) (t : Tid) (v : TaskState) :
    Unawaited (s.setState t v) :=
  ⟨unawaited.none, unawaited.empty, unawaited.listed⟩

theorem Unawaited.lockedDown (unawaited : Unawaited s) (t : Tid) :
    Unawaited (s.lockedDown t) := by
  unfold SemaphoreState.lockedDown Semaphore.downLocked
  by_cases positive : 0 < s.sem.count
  · rw [if_pos positive]
    exact unawaited.moveTo t (by simp)
  rw [if_neg positive]
  dsimp only
  by_cases room : s.sem.waiters.length < mutexWaitQueueMax
  · rw [if_pos room]
    refine ⟨unawaited.none, ?_, ?_⟩
    · intro _
      change s.sem.count ≤ 0
      omega
    · intro u known
      rw [moveTo_point] at known
      change u ∈ s.sem.waiters ++ [t]
      split at known
      · rename_i same
        simp [same]
      · exact mem_append_left _ (unawaited.listed u known)
  · rw [if_neg room]
    exact unawaited.moveTo t (by simp)

theorem step_unawaited (unawaited : Unawaited s)
    (accounted : Accounted val s) (guard : UpUnawaited s a) (run : s.step a = some s') :
    Unawaited s' := by
  cases step_cases run with
  | moves awake positive => exact unawaited.moveTo _ awake
  | @takes t v known unchanged =>
    have positive := accounted.expected t v known
    have moved := unawaited.moveTo t (p := .outside) (by simp)
    refine ⟨unawaited.none, ?_, moved.listed⟩
    intro waiting
    have empty := unawaited.empty waiting
    omega
  | locked t => exact unawaited.lockedDown t
  | dispatched t => exact (unawaited.setState t .running).moveTo t (by simp)
  | woken t => exact unawaited.setState t .ready
  | raised t =>
    obtain ⟨nobody, _⟩ := guard
    have listed : ∀ u, s.point u ≠ .yielded := by
      intro u yielded
      have member := unawaited.listed u yielded
      rw [nobody] at member
      exact not_mem_nil member
    simp only [SemaphoreState.up, Semaphore.upLocked, nobody]
    refine ⟨unawaited.none, ?_, ?_⟩
    · intro waiting
      exact absurd rfl waiting
    · intro u yielded
      exact absurd yielded (listed u)

end Steps

/-! ## Runs -/

theorem init_accounted {val : Int} (low : - 2 ^ 31 ≤ val) :
    Accounted val (SemaphoreState.init val) := by
  refine ⟨?_, low, ?_⟩
  · simp [SemaphoreState.init, semaInit]
  · intro t v known
    exact absurd known (by simp [SemaphoreState.init])

theorem semaphore_tokens_conserved {val : Int} (low : - 2 ^ 31 ≤ val) {s : SemaphoreState}
    (run : Reach (Started val) (restrict UpUnawaited SemaphoreStep) s) : TokenLaw val s := by
  have kept : Accounted val s ∧ Unawaited s := by
    apply invariant (fun s => Accounted val s ∧ Unawaited s) _ _ run
    · intro s start
      rw [start]
      refine ⟨init_accounted low, rfl, ?_, ?_⟩
      · intro waiting
        exact absurd rfl waiting
      · intro t yielded
        exact absurd yielded (by simp [SemaphoreState.init])
    · intro s a t kept move
      obtain ⟨accounted, unawaited⟩ := kept
      obtain ⟨guard, stepped⟩ := move
      have fits : UpFits s a := by
        cases a with
        | up u => exact fun _ => guard.2
        | _ => trivial
      exact ⟨step_accounted accounted fits stepped,
        step_unawaited unawaited accounted guard stepped⟩
  obtain ⟨accounted, unawaited⟩ := kept
  have tokens := accounted.tokens
  rw [unawaited.none] at tokens
  refine ⟨by omega, ?_⟩
  intro t asleep allowed
  have waiting : s.sem.waiters ≠ [] := ne_nil_of_mem (unawaited.listed t asleep.1)
  have empty := unawaited.empty waiting
  omega

theorem semaphore_tokens_conserved_up_down :
    ∃ s, Reach (Started 0) (restrict UpUnawaited SemaphoreStep) s ∧ s.downs = 1 ∧
      TokenLaw 0 s := by
  have raised : Reach (Started 0) (restrict UpUnawaited SemaphoreStep) _ :=
    next (a := SemaphoreAction.up 1) (.start rfl) ⟨⟨rfl, by decide⟩, rfl⟩
  have entered := raised.next (a := SemaphoreAction.down 2) ⟨trivial, rfl⟩
  have loaded := entered.next (a := SemaphoreAction.load 2) ⟨trivial, rfl⟩
  have taken := loaded.next (a := SemaphoreAction.compareExchange 2) ⟨trivial, rfl⟩
  exact ⟨_, taken, rfl, semaphore_tokens_conserved (by decide) taken⟩

/-! ## A lost token -/

/-- Task 2 sleeps in `down`; task 1 calls `up`; task 2 is dispatched, finds no count and sleeps
again. -/
def lostTokenRun : List SemaphoreAction :=
  [.down 2, .load 2, .locked 2, .up 1, .dispatch 2, .load 2, .locked 2]

theorem semaphore_token_lost :
    ∃ s, Reach (Started 0) SemaphoreStep s ∧ Quiescent s ∧ AsleepInDown s 2 ∧ s.ups = 1 ∧
      s.downs = 0 ∧ s.sem.count = 0 ∧ ¬ TokenLaw 0 s := by
  obtain ⟨s, ran⟩ : ∃ s, lostTokenRun.foldlM SemaphoreState.step (.init 0) = some s := ⟨_, rfl⟩
  have reached : Reach (Started 0) SemaphoreStep s :=
    of_foldlM (fun _ _ _ stepped => stepped) lostTokenRun (.start rfl) ran
  cases ran
  refine ⟨_, reached, fun t => ?_, ⟨rfl, rfl⟩, rfl, rfl, rfl, fun law => absurd law.1 (by decide)⟩
  by_cases two : t = 2
  · rw [two]
    exact Or.inr ⟨rfl, rfl⟩
  · -- only the point of task 2 was moved
    refine Or.inl ((Function.update_of_ne two _ _).trans ?_)
    simp [two, SemaphoreState.moveTo, SemaphoreState.setState, SemaphoreState.up,
        SemaphoreState.lockedDown, Semaphore.downLocked, Semaphore.upLocked, SemaphoreState.init,
        semaInit, mutexWaitQueueMax]

end CactKernel.Sync
