import Mathlib.Data.BitVec

/-! # Task structs

The types of `task_abi.rs` as far as the scheduler and the sleeping locks read
them. A pointer to a task struct is a `Tid`, null is `none` wherever a pointer
may be null. -/

set_option autoImplicit false

namespace CactKernel

/-- The address of a task struct. -/
abbrev Tid := Nat

inductive TaskState
  | ready
  | running
  | sleeping
  | zombie
  | waiting
  deriving DecidableEq, Repr

/-- The conversion at the head of `task_set_state`; other codes are ignored there. -/
def TaskState.ofCode : Nat → Option TaskState
  | 0 => some .ready
  | 1 => some .running
  | 2 => some .sleeping
  | 3 => some .zombie
  | 4 => some .waiting
  | _ => none

/-- Process metadata: the fields that signals, timers, waiting and reaping use. -/
structure ProcMeta where
  pendingSignals : BitVec 32 := 0
  signalMask : BitVec 32 := 0
  savedSignalMask : BitVec 32 := 0
  inSigsuspend : Bool := false
  signalHandlers : Nat → Nat := fun _ => 0
  alarmTicks : Nat := 0
  itimerValue : Nat := 0
  itimerInterval : Nat := 0
  parentPid : Nat := 0
  exitCode : Int := 0
  sleepUntil : Nat := 0
  waitNext : Option Tid := none

/-- Addition of `u32` values that wraps. -/
def wrappingAdd (a b : Nat) : Nat := (a + b) % 2 ^ 32

end CactKernel
