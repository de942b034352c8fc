import CactKernel.Lib.Slice
import CactKernel.Task

/-! # Semaphores and mutexes

The objects of `semaphore.rs` and `mutex.rs` and the sections of their
operations that run under the object's guard. The array `waiters` with
`waiter_count` is the list of its used slots. What a section does to tasks is
its outcome; the caller carries it out. -/

set_option autoImplicit false

namespace CactKernel.Sync

open Lib

def mutexWaitQueueMax : Nat := 64

/-! ## Semaphores -/

structure Semaphore where
  count : Int
  waiters : List Tid
  deriving DecidableEq, Repr

def semaInit (val : Int) : Semaphore := ⟨val, []⟩

/-- Two's complement wrap of an `i32`, as `fetch_add` does it. -/
def wrapI32 (n : Int) : Int := (n + 2 ^ 31) % 2 ^ 32 - 2 ^ 31

/-- What the locked section of `down` found. -/
inductive DownOutcome
  | retry
  | sleep
  | spin
  deriving DecidableEq, Repr

def Semaphore.downLocked (s : Semaphore) (cur : Option Tid) : DownOutcome × Semaphore :=
  if 0 < s.count then (.retry, s)
  else match cur with
    | none => (.spin, s)
    | some t =>
      if s.waiters.length < mutexWaitQueueMax then
        (.sleep, { s with waiters := s.waiters ++ [t] })
      else (.spin, s)

/-- The section of `up`: the waiter to wake, if one waits. -/
def Semaphore.upLocked (s : Semaphore) : Option Tid × Semaphore :=
  match s.waiters with
  | woken :: rest => (some woken, { s with waiters := rest })
  | [] => (none, { s with count := wrapI32 (s.count + 1) })

/-! ## Mutexes -/

structure Mutex where
  locked : Bool
  owner : Option Tid
  waiters : List Tid
  recursionCount : Nat
  deriving DecidableEq, Repr

def mutexInit : Mutex := ⟨false, none, [], 0⟩

inductive LockOutcome
  | acquired
  | sleep
  | spin
  deriving DecidableEq, Repr

/-- One round of the loop of `mutex_lock`. `recursion_count += 1` is checked. -/
def Mutex.lockSection (m : Mutex) (cur : Option Tid) : Option (LockOutcome × Mutex) :=
  if m.owner = cur then
    (checkedAdd m.recursionCount 1).map fun n => (.acquired, { m with recursionCount := n })
  else if m.locked = false then
    some (.acquired, { m with locked := true, owner := cur, recursionCount := 0 })
  else match cur with
    | none => some (.spin, m)
    | some t =>
      if m.waiters.length < mutexWaitQueueMax then
        some (.sleep, { m with waiters := m.waiters ++ [t] })
      else some (.spin, m)

/-- `mutex_trylock`; the answer is `true` for its return value `0`. -/
def Mutex.trylock (m : Mutex) (cur : Option Tid) : Option (Bool × Mutex) :=
  if m.owner = cur then
    (checkedAdd m.recursionCount 1).map fun n => (true, { m with recursionCount := n })
  else if m.locked = false then
    some (true, { m with locked := true, owner := cur, recursionCount := 0 })
  else some (false, m)

/-- What `mutex_unlock` did under the guard. -/
inductive UnlockOutcome
  | notLocked
  | stillHeld
  | handOff (woken : Tid)
  | released
  deriving DecidableEq, Repr

def Mutex.unlockSection (m : Mutex) (cur : Option Tid) : UnlockOutcome × Mutex :=
  if m.locked = false then (.notLocked, m)
  else if m.owner = cur ∧ 0 < m.recursionCount then
    (.stillHeld, { m with recursionCount := m.recursionCount - 1 })
  else match m.waiters with
    | woken :: rest => (.handOff woken, { m with waiters := rest, owner := some woken })
    | [] => (.released, { m with locked := false, owner := none })

end CactKernel.Sync
