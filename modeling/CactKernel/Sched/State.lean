import CactKernel.Sched.Queue
import CactKernel.Sync.Object
import CactKernel.Lib.Walk

/-! # The state of the scheduler

Memory is seen one struct field at a time: every field of `TaskStruct` that the
scheduler touches is a function of the task's address. `proc` is the address
of the process metadata, `0` being null; the null page is mapped, so reading
metadata through a null pointer reads the metadata at address `0`.

`live` marks the addresses that hold a task struct. It is no field of the
kernel: it is set when a struct is allocated and cleared when it is freed. An
address without a task counts as `zombie`, which is the state a struct is
freed in. -/

set_option autoImplicit false

namespace CactKernel.Sched

open Lib Sync Function

def mlfqLevels : Nat := 4
def mlfqLevelRt : Nat := 0
def mlfqLevelInteractive : Nat := 1
def mlfqLevelBackground : Nat := 3
def boostInterval : Nat := 50
def boostTarget : Nat := mlfqLevelInteractive
def wheelSize : Nat := 256

def mlfqQuantum (level : Nat) : Nat := [5, 1, 2, 4].getD level 0

/-- A slot of the timer wheel; its tasks are linked through `wait_next`. -/
structure TimerSlot where
  head : Option Tid
  count : Nat
  deriving DecidableEq, Repr

structure Kernel where
  live : Tid → Bool
  pid : Tid → Nat
  state : Tid → TaskState
  isKernel : Tid → Bool
  next : Tid → Option Tid
  queueNext : Links
  priority : Tid → Nat
  ticksUsed : Tid → Nat
  proc : Tid → Nat
  procMeta : Nat → ProcMeta
  queues : Nat → MlfqQueue
  sleepQueue : MlfqQueue
  boostCounter : Nat
  slots : Nat → TimerSlot
  currentTick : Nat
  currentTask : Option Tid
  taskListHead : Option Tid
  taskListTail : Option Tid
  nextPid : Nat
  reapCounter : Nat
  semaphores : Nat → Semaphore
  mutexes : Nat → Mutex
  /-- The waiters that a `mutex_unlock` has made owner and has yet to wake. -/
  handOffs : List Tid

namespace Kernel

def setState (s : Kernel) (t : Tid) (v : TaskState) : Kernel :=
  { s with state := update s.state t v }

def setPriority (s : Kernel) (t : Tid) (v : Nat) : Kernel :=
  { s with priority := update s.priority t v }

def setTicksUsed (s : Kernel) (t : Tid) (v : Nat) : Kernel :=
  { s with ticksUsed := update s.ticksUsed t v }

def setNext (s : Kernel) (t : Tid) (v : Option Tid) : Kernel :=
  { s with next := update s.next t v }

def metaOf (s : Kernel) (t : Tid) : ProcMeta := s.procMeta (s.proc t)

def updateMeta (s : Kernel) (t : Tid) (f : ProcMeta → ProcMeta) : Kernel :=
  { s with procMeta := update s.procMeta (s.proc t) (f (s.metaOf t)) }

def setSlot (s : Kernel) (i : Nat) (v : TimerSlot) : Kernel :=
  { s with slots := update s.slots i v }

end Kernel

@[simp] theorem metaOf_updateMeta_self (s : Kernel) (t : Tid) (f : ProcMeta → ProcMeta) :
    (s.updateMeta t f).metaOf t = f (s.metaOf t) := by
  simp [Kernel.metaOf, Kernel.updateMeta]

/-- The scheduler after `task_init` and `init_scheduler`: the idle task runs, its `next` points
to itself, and all queues are empty. -/
def initScheduler (idle : Tid) : Kernel where
  live := fun t => t = idle
  pid := fun _ => 0
  state := fun t => if t = idle then .running else .zombie
  isKernel := fun t => t = idle
  next := fun t => if t = idle then some idle else none
  queueNext := fun _ => none
  priority := fun t => if t = idle then mlfqLevelBackground else 0
  ticksUsed := fun _ => 0
  proc := fun _ => 0
  procMeta := fun _ => {}
  queues := fun _ => MlfqQueue.empty
  sleepQueue := MlfqQueue.empty
  boostCounter := 0
  slots := fun _ => ⟨none, 0⟩
  currentTick := 0
  currentTask := some idle
  taskListHead := some idle
  taskListTail := some idle
  nextPid := 1
  reapCounter := 0
  semaphores := fun _ => semaInit 0
  mutexes := fun _ => mutexInit
  handOffs := []

/-! ## The task list -/

def taskListAdd (s : Kernel) (t : Tid) : Kernel :=
  let s := s.setNext t none
  match s.taskListTail with
  | none => { s with taskListHead := some t, taskListTail := some t }
  | some last => { s.setNext last (some t) with taskListTail := some t }

/-- The loop of `task_list_remove`, standing at `cur` with predecessor `prev`. -/
def taskListRemoveFrom (s : Kernel) (t : Tid) :
    Nat → Option Tid → Option Tid → Option Kernel
  | 0, _, _ => none
  | _ + 1, _, none => some s
  | fuel + 1, prev, some cur =>
    if cur = t then
      let s := match prev with
        | none => { s with taskListHead := s.next t }
        | some p => s.setNext p (s.next t)
      let s := if s.taskListTail = some t then { s with taskListTail := prev } else s
      some (s.setNext t none)
    else taskListRemoveFrom s t fuel (some cur) (s.next cur)

def taskListRemove (fuel : Nat) (s : Kernel) (t : Tid) : Option Kernel :=
  taskListRemoveFrom s t fuel none s.taskListHead

def findFrom (s : Kernel) (pid : Nat) : Nat → Option Tid → Option (Option Tid)
  | 0, _ => none
  | _ + 1, none => some none
  | fuel + 1, some cur =>
    if s.pid cur = pid then some (some cur) else findFrom s pid fuel (s.next cur)

def findTaskByPid (fuel : Nat) (s : Kernel) (pid : Nat) : Option (Option Tid) :=
  findFrom s pid fuel s.taskListHead

theorem findFrom_pid {s : Kernel} {pid : Nat} {fuel : Nat} {h : Option Tid} {t : Tid}
    (found : findFrom s pid fuel h = some (some t)) : s.pid t = pid := by
  induction fuel generalizing h t with
  | zero => simp [findFrom] at found
  | succ fuel ih =>
    cases h with
    | none => simp [findFrom] at found
    | some cur =>
      by_cases matching : s.pid cur = pid
      · simp only [findFrom, if_pos matching, Option.some.injEq] at found
        exact found ▸ matching
      · simp only [findFrom, if_neg matching] at found
        exact ih found

end CactKernel.Sched
