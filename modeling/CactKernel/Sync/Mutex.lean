import CactKernel.Sync.Object
import CactKernel.Lib.Reach

/-! # The recursive mutex under every interleaving

Any number of tasks call `mutex_lock`, `mutex_trylock` and `mutex_unlock` on
one mutex. The guard makes each of their sections one step; `mutex_unlock`
wakes the waiter it has made owner in a second step, under the scheduler lock.

`depth t` is the number of times `t` has locked the mutex (a returned
`mutex_lock`, a `mutex_trylock` that answered `0`) less its calls of
`mutex_unlock`. A waiter that is made owner by an unlock resumes inside its
own loop, where it is taken for the owner locking again. -/

set_option autoImplicit false

namespace CactKernel.Sync

open Lib Option Function Or Reach

inductive MutexPoint
  | outside
  | locking
  | yielded
  | waking (woken : Tid)
  deriving DecidableEq, Repr

structure MutexState where
  mutex : Mutex
  point : Tid → MutexPoint
  state : Tid → TaskState
  depth : Tid → Nat

inductive MutexAction
  | lock (t : Tid)
  | lockSection (t : Tid)
  | trylock (t : Tid)
  | unlock (t : Tid)
  | wake (t : Tid)
  | dispatch (t : Tid)
  | noSwitch (t : Tid)
  | wakeElsewhere (t : Tid)

namespace MutexState

def init : MutexState where
  mutex := mutexInit
  point := fun _ => .outside
  state := fun _ => .running
  depth := fun _ => 0

def moveTo (s : MutexState) (t : Tid) (p : MutexPoint) : MutexState :=
  { s with point := update s.point t p }

def setState (s : MutexState) (t : Tid) (v : TaskState) : MutexState :=
  { s with state := update s.state t v }

def setDepth (s : MutexState) (t : Tid) (n : Nat) : MutexState :=
  { s with depth := update s.depth t n }

def lockRound (s : MutexState) (t : Tid) : Option MutexState := do
  let (outcome, m) ← s.mutex.lockSection (some t)
  let s := { s with mutex := m }
  match outcome with
  | .acquired => some ((s.setDepth t (s.depth t + 1)).moveTo t .outside)
  | .sleep => some ((s.setState t .sleeping).moveTo t .yielded)
  | .spin => some s

def trylock (s : MutexState) (t : Tid) : Option MutexState := do
  let (taken, m) ← s.mutex.trylock (some t)
  let s := { s with mutex := m }
  some (if taken then s.setDepth t (s.depth t + 1) else s)

/-- `mutex_unlock` up to the release of the guard. -/
def unlock (s : MutexState) (t : Tid) : MutexState :=
  let (outcome, m) := s.mutex.unlockSection (some t)
  let s := { s with mutex := m }.setDepth t (s.depth t - 1)
  match outcome with
  | .handOff woken => s.moveTo t (.waking woken)
  | _ => s

def step (s : MutexState) : MutexAction → Option MutexState
  | .lock t => if s.point t = .outside then some (s.moveTo t .locking) else none
  | .lockSection t => if s.point t = .locking then s.lockRound t else none
  | .trylock t => if s.point t = .outside then s.trylock t else none
  | .unlock t => if s.point t = .outside then some (s.unlock t) else none
  | .wake t =>
    match s.point t with
    | .waking woken =>
      let s := s.moveTo t .outside
      some (if s.state woken = .sleeping then s.setState woken .ready else s)
    | _ => none
  | .dispatch t =>
    if s.point t = .yielded ∧ s.state t = .ready then
      some ((s.setState t .running).moveTo t .locking)
    else none
  | .noSwitch t => if s.point t = .yielded then some (s.moveTo t .locking) else none
  | .wakeElsewhere t =>
    if s.state t = .sleeping then some (s.setState t .ready) else none

end MutexState

def MutexStep (s : MutexState) (a : MutexAction) (t : MutexState) : Prop := s.step a = some t

def MutexStarted (s : MutexState) : Prop := s = MutexState.init

/-- Inside a call of `mutex_lock` that has not returned. -/
def PendingLock (s : MutexState) (t : Tid) : Prop :=
  s.point t = .locking ∨ s.point t = .yielded

/-- At most one task holds the mutex; whoever has locked it more often than unlocked it is its
owner; an owner who has not is a former waiter about to return from `mutex_lock`; and a mutex
without owner is free and nobody waits for it. -/
structure RecursiveLaw (s : MutexState) : Prop where
  exclusive : ∀ t u, 0 < s.depth t → 0 < s.depth u → t = u
  holder_owns : ∀ t, 0 < s.depth t → s.mutex.locked = true ∧ s.mutex.owner = some t
  owner_holds : s.mutex.locked = true →
    ∃ t, s.mutex.owner = some t ∧ (0 < s.depth t ∨ PendingLock s t)
  free : s.mutex.locked = false → s.mutex.owner = none ∧ s.mutex.waiters = []

def HolderUnlocks (s : MutexState) : MutexAction → Prop
  | .unlock t => 0 < s.depth t
  | _ => True

/-- The last unlock of a task finds no waiter. -/
def NoHandOff (s : MutexState) : MutexAction → Prop
  | .unlock _ => s.mutex.recursionCount = 0 → s.mutex.waiters = []
  | _ => True

/-! ## The invariant of runs without a hand-off -/

/-- The mutex is free, or one task holds it and the recursion count is one less than its depth. -/
def Counted (s : MutexState) : Prop :=
  (s.mutex.locked = false ∧ s.mutex.owner = none ∧ s.mutex.waiters = [] ∧ ∀ t, s.depth t = 0) ∨
    ∃ t, s.mutex.locked = true ∧ s.mutex.owner = some t ∧
      s.depth t = s.mutex.recursionCount + 1 ∧ ∀ u, u ≠ t → s.depth u = 0

section Steps

variable {s s' : MutexState} {t : Tid}

theorem Counted.congr (counted : Counted s) (mutex : s'.mutex = s.mutex)
    (depth : s'.depth = s.depth) :
    Counted s' := by
  unfold Counted
  rw [mutex, depth]
  exact counted

theorem Counted.owner_depth (counted : Counted s) (owner : s.mutex.owner = some t) :
    s.mutex.locked = true ∧ s.depth t = s.mutex.recursionCount + 1 ∧
      ∀ u, u ≠ t → s.depth u = 0 := by
  rcases counted with ⟨_, unowned, _⟩ | ⟨u, locked, owned, count, others⟩
  · rw [unowned] at owner
    cases owner
  · cases some.inj (owned.symm.trans owner)
    exact ⟨locked, count, others⟩

theorem Counted.of_owner {n : Nat} (locked : s.mutex.locked = true) (owner : s.mutex.owner = some t)
    (count : n = s.mutex.recursionCount + 1) (others : ∀ u, u ≠ t → s.depth u = 0) :
    Counted (s.setDepth t n) := by
  refine inr ⟨t, locked, owner, (update_self ..).trans count, fun u different => ?_⟩
  exact (update_of_ne different ..).trans (others u different)

theorem Counted.again (counted : Counted s) (owner : s.mutex.owner = some t) :
    Counted (MutexState.setDepth
      { s with mutex := { s.mutex with recursionCount := s.mutex.recursionCount + 1 } } t
      (s.depth t + 1)) := by
  obtain ⟨locked, count, others⟩ := counted.owner_depth owner
  exact .of_owner locked owner (by rw [count]) others

theorem Counted.take (counted : Counted s) (free : s.mutex.locked = false) :
    Counted (MutexState.setDepth
      { s with mutex := { s.mutex with locked := true, owner := some t, recursionCount := 0 } } t
      (s.depth t + 1)) := by
  rcases counted with ⟨_, _, _, nobody⟩ | ⟨u, locked, _⟩
  · exact .of_owner rfl rfl (by rw [nobody t]) fun u _ => nobody u
  · rw [free] at locked
    exact absurd locked (by decide)

theorem Counted.wait (counted : Counted s) (held : s.mutex.locked = true) (waiters : List Tid) :
    Counted { s with mutex := { s.mutex with waiters := waiters } } := by
  rcases counted with ⟨free, _⟩ | ⟨u, locked, owner, count, others⟩
  · rw [held] at free
    exact absurd free (by decide)
  · exact inr ⟨u, locked, owner, count, others⟩

theorem checkedAdd_eq {a b n : Nat} (run : checkedAdd a b = some n) : n = a + b := by
  unfold checkedAdd at run
  split at run
  · exact (some.inj run).symm
  · cases run

theorem Counted.lockRound (counted : Counted s) (run : s.lockRound t = some s') : Counted s' := by
  unfold MutexState.lockRound Mutex.lockSection at run
  by_cases owner : s.mutex.owner = some t
  · rw [if_pos owner, bind_eq_bind] at run
    obtain ⟨r, entered, run⟩ := bind_eq_some_iff.mp run
    obtain ⟨n, count, rfl⟩ := map_eq_some_iff.mp entered
    cases checkedAdd_eq count
    cases run
    exact (counted.again owner).congr rfl rfl
  rw [if_neg owner] at run
  by_cases free : s.mutex.locked = false
  · rw [if_pos free] at run
    cases run
    exact (counted.take free).congr rfl rfl
  rw [if_neg free] at run
  have held : s.mutex.locked = true := by simpa using free
  dsimp only at run
  by_cases room : s.mutex.waiters.length < mutexWaitQueueMax
  · rw [if_pos room] at run
    cases run
    exact (counted.wait held _).congr rfl rfl
  · rw [if_neg room] at run
    cases run
    exact counted.congr rfl rfl

theorem Counted.trylock (counted : Counted s) (run : s.trylock t = some s') : Counted s' := by
  unfold MutexState.trylock Mutex.trylock at run
  by_cases owner : s.mutex.owner = some t
  · rw [if_pos owner, bind_eq_bind] at run
    obtain ⟨r, entered, run⟩ := bind_eq_some_iff.mp run
    obtain ⟨n, count, rfl⟩ := map_eq_some_iff.mp entered
    cases checkedAdd_eq count
    cases run
    exact (counted.again owner).congr rfl rfl
  rw [if_neg owner] at run
  by_cases free : s.mutex.locked = false
  · rw [if_pos free] at run
    cases run
    exact (counted.take free).congr rfl rfl
  · rw [if_neg free] at run
    cases run
    exact counted.congr rfl rfl

theorem Counted.unlock (counted : Counted s) (holder : 0 < s.depth t)
    (unawaited : s.mutex.recursionCount = 0 → s.mutex.waiters = []) : Counted (s.unlock t) := by
  rcases counted with ⟨_, _, _, nobody⟩ | ⟨u, locked, owner, count, others⟩
  · rw [nobody t] at holder
    exact absurd holder (by decide)
  have same : t = u := by
    by_contra different
    rw [others t different] at holder
    exact absurd holder (by decide)
  subst same
  unfold MutexState.unlock Mutex.unlockSection
  have held : ¬ s.mutex.locked = false := by simp [locked]
  rw [if_neg held]
  by_cases nested : 0 < s.mutex.recursionCount
  · rw [if_pos ⟨owner, nested⟩]
    exact .of_owner locked owner (by dsimp only; omega) others
  · have last : s.mutex.recursionCount = 0 := by omega
    rw [if_neg (fun both => nested both.2), unawaited last]
    apply inl
    refine ⟨rfl, rfl, rfl, ?_⟩
    intro u
    by_cases same : u = t
    · subst same
      simp only [MutexState.setDepth, update_self]
      omega
    · simp only [MutexState.setDepth, update_of_ne same]
      exact others u same

theorem step_counted {a : MutexAction} (counted : Counted s) (holder : HolderUnlocks s a)
    (unawaited : NoHandOff s a) (run : s.step a = some s') : Counted s' := by
  cases a with
  | lock t | noSwitch t | wakeElsewhere t | dispatch t =>
    simp only [MutexState.step] at run
    split at run
    · cases run
      exact counted.congr rfl rfl
    · cases run
  | lockSection t =>
    simp only [MutexState.step] at run
    split at run
    · exact counted.lockRound run
    · cases run
  | trylock t =>
    simp only [MutexState.step] at run
    split at run
    · exact counted.trylock run
    · cases run
  | unlock t =>
    simp only [MutexState.step] at run
    split at run
    · cases run
      exact counted.unlock holder unawaited
    · cases run
  | wake t =>
    simp only [MutexState.step] at run
    split at run
    · cases run
      split <;> exact counted.congr rfl rfl
    · cases run

/-- The law at its sharpest: the owner is the holder. -/
theorem Counted.law (counted : Counted s) : RecursiveLaw s := by
  rcases counted with ⟨free, unowned, unawaited, nobody⟩ | ⟨t, locked, owner, count, others⟩
  · constructor
    · intro t u holds _
      rw [nobody t] at holds
      exact absurd holds (by decide)
    · intro t holds
      rw [nobody t] at holds
      exact absurd holds (by decide)
    · intro locked
      rw [free] at locked
      exact absurd locked (by decide)
    · intro _
      exact ⟨unowned, unawaited⟩
  · have only : ∀ u, 0 < s.depth u → u = t := by
      intro u holds
      by_contra different
      rw [others u different] at holds
      exact absurd holds (by decide)
    constructor
    · intro u v holdsU holdsV
      rw [only u holdsU, only v holdsV]
    · intro u holds
      rw [only u holds]
      exact ⟨locked, owner⟩
    · intro _
      exact ⟨t, owner, inl (by omega)⟩
    · intro free
      rw [locked] at free
      exact absurd free (by decide)

end Steps

/-! ## Runs -/

/-- The steps of a run in which only holders unlock and no unlock hands the mutex over. -/
def Orderly (s : MutexState) (a : MutexAction) : Prop := HolderUnlocks s a ∧ NoHandOff s a

theorem mutex_recursive_law {s : MutexState}
    (run : Reach MutexStarted (restrict Orderly MutexStep) s) : RecursiveLaw s := by
  apply Counted.law
  apply invariant Counted _ _ run
  · intro s start
    rw [start]
    exact inl ⟨rfl, rfl, rfl, fun _ => rfl⟩
  · intro s a t counted move
    exact step_counted counted move.1.1 move.1.2 move.2

theorem mutex_recursive_law_nested :
    ∃ s, Reach MutexStarted (restrict Orderly MutexStep) s ∧ s.depth 1 = 1 ∧ RecursiveLaw s := by
  have locked : Reach MutexStarted (restrict Orderly MutexStep) _ :=
    next (a := MutexAction.trylock 1) (.start rfl) ⟨⟨trivial, trivial⟩, rfl⟩
  have nested := locked.next (a := MutexAction.trylock 1) ⟨⟨trivial, trivial⟩, rfl⟩
  have run := nested.next (a := MutexAction.unlock 1) ⟨⟨Nat.succ_pos 1, nofun⟩, rfl⟩
  exact ⟨_, run, rfl, mutex_recursive_law run⟩

/-- Task 1 locks, task 2 waits, task 1 unlocks and wakes task 2, whose lock returns; task 2
unlocks once. -/
def handOffRun : List MutexAction :=
  [.lock 1, .lockSection 1, .lock 2, .lockSection 2, .unlock 1, .wake 1, .dispatch 2,
    .lockSection 2, .unlock 2]

/-- The run with the condition that only holders unlock checked at every step. -/
def holderStep (s : MutexState) : MutexAction → Option MutexState
  | .unlock t => if 0 < s.depth t then s.step (.unlock t) else none
  | a => s.step a

theorem mutex_held_after_unlock :
    ∃ s, Reach MutexStarted (restrict HolderUnlocks MutexStep) s ∧ s.depth 2 = 0 ∧
      s.point 2 = .outside ∧ s.mutex.locked = true ∧ s.mutex.owner = some 2 ∧
      ¬ RecursiveLaw s := by
  have sound : ∀ s a t, holderStep s a = some t → restrict HolderUnlocks MutexStep s a t := by
    intro s a t stepped
    cases a with
    | unlock u =>
      simp only [holderStep] at stepped
      split at stepped
      · rename_i holds
        exact ⟨holds, stepped⟩
      · cases stepped
    | _ => exact ⟨trivial, stepped⟩
  obtain ⟨s, reached, depth, outside, locked, owner⟩ := exists_of_run
    MutexStarted holderStep sound rfl handOffRun
    (fun s => s.depth 2 = 0 ∧ s.point 2 = .outside ∧ s.mutex.locked = true ∧
      s.mutex.owner = some 2) (by decide +kernel)
  refine ⟨s, reached, depth, outside, locked, owner, ?_⟩
  intro law
  obtain ⟨t, owned, holds⟩ := law.owner_holds locked
  cases some.inj (owner.symm.trans owned)
  rw [depth, PendingLock, outside] at holds
  exact absurd holds (by decide)

end CactKernel.Sync
