import CactKernel.Sched.State

/-! # The multi-level feedback queue

The operations of `mlfq.rs` that move tasks between the ready queues and the
sleep queue. `none` is a run that does not come back: an overflow check that
fails, or a walk around a cyclic queue. -/

set_option autoImplicit false

namespace CactKernel.Sched

open Lib

def mlfqEnqueueLocked (s : Kernel) (task : Tid) (level : Nat) : Kernel :=
  let level := min level (mlfqLevels - 1)
  let pushed := (s.queues level).push s.queueNext task
  { s.setPriority task level with
    queueNext := pushed.1
    queues := Function.update s.queues level pushed.2 }

/-- The two statements every wake-up ends with: `state = Ready` and an enqueue at the task's
own priority. -/
def makeReady (s : Kernel) (task : Tid) : Kernel :=
  mlfqEnqueueLocked (s.setState task .ready) task (s.priority task)

def mlfqSleepLocked (s : Kernel) (task : Tid) : Kernel :=
  let pushed := s.sleepQueue.push s.queueNext task
  { s with queueNext := pushed.1, sleepQueue := pushed.2 }

def mlfqRemoveFromSleep (fuel : Nat) (s : Kernel) (task : Tid) : Option Kernel :=
  (s.sleepQueue.remove fuel s.queueNext task).map fun r =>
    { s with queueNext := r.1, sleepQueue := r.2 }

def popLevel (s : Kernel) (level : Nat) : Option (Option Tid × Kernel) :=
  ((s.queues level).pop s.queueNext).map fun r =>
    (r.1, { s with queueNext := r.2.1, queues := Function.update s.queues level r.2.2 })

/-- The loop of `pick_next_task` over the levels that are left. -/
def pickFrom : List Nat → Kernel → Option (Option Tid × Kernel)
  | [], s => some (none, s)
  | level :: rest, s => do
    let (t, s) ← popLevel s level
    match t with
    | some t => some (some t, s)
    | none => pickFrom rest s

def pickNextTask (s : Kernel) : Option (Option Tid × Kernel) :=
  pickFrom (List.range mlfqLevels) s

/-- The inner loop of `do_priority_boost`: empties one level into `BOOST_TARGET`. -/
def boostLevel (level : Nat) : Nat → Kernel → Option Kernel
  | 0, _ => none
  | fuel + 1, s => do
    let (t, s) ← popLevel s level
    match t with
    | none => some s
    | some t =>
      let s := (s.setTicksUsed t 0).setPriority t boostTarget
      let pushed := (s.queues boostTarget).push s.queueNext t
      boostLevel level fuel { s with
        queueNext := pushed.1
        queues := Function.update s.queues boostTarget pushed.2 }

def boostCurrent (s : Kernel) : Kernel :=
  match s.currentTask with
  | none => s
  | some cur =>
    if boostTarget < s.priority cur ∧ s.priority cur ≠ mlfqLevelRt then
      (s.setPriority cur boostTarget).setTicksUsed cur 0
    else s

def doPriorityBoost (fuel : Nat) (s : Kernel) : Option Kernel := do
  let s ← boostLevel 2 fuel s
  let s ← boostLevel 3 fuel s
  some (boostCurrent s)

/-- One task of the walk of `wake_expired_sleepers`; the state carries the last task kept. -/
def wakeExpiredBody (now : Nat) (cur : Tid) (w : Option Tid × Kernel) :
    Option (Option Tid × Option Tid × Kernel) :=
  let (prev, s) := w
  let next := s.queueNext cur
  let deadline := (s.metaOf cur).sleepUntil
  if deadline ≠ 0 ∧ deadline ≤ now then do
    let (links, sq) ← s.sleepQueue.unlink s.queueNext prev cur
    let s := { s with queueNext := links, sleepQueue := sq }
    let s := s.updateMeta cur fun m => { m with sleepUntil := 0 }
    some (next, prev, makeReady s cur)
  else some (next, some cur, s)

def wakeExpiredSleepers (fuel : Nat) (s : Kernel) : Option Kernel :=
  (walk (wakeExpiredBody s.currentTick) fuel s.sleepQueue.head (none, s)).map (·.2)

def mlfqWakeTask (fuel : Nat) (s : Kernel) (task : Tid) : Option Kernel :=
  match s.state task with
  | .sleeping => do
    let s ← mlfqRemoveFromSleep fuel s task
    some (makeReady s task)
  | .waiting => some (makeReady s task)
  | _ => some s

/-- A task that blocks early in its quantum moves up a level. -/
def rewardEarlyBlock (s : Kernel) (task : Tid) : Kernel :=
  let quantum := mlfqQuantum (min (s.priority task) (mlfqLevels - 1))
  if s.ticksUsed task < quantum / 2 + 1 ∧ mlfqLevelInteractive < s.priority task then
    s.setPriority task (s.priority task - 1)
  else s

def taskVoluntaryBlock (s : Kernel) (task : Tid) (newState : TaskState) : Kernel :=
  let s := ((rewardEarlyBlock s task).setTicksUsed task 0).setState task newState
  if newState = .sleeping then mlfqSleepLocked s task else s

def taskSetState (s : Kernel) (t : Tid) (newState : Nat) : Kernel :=
  match TaskState.ofCode newState with
  | none => s
  | some .ready => makeReady s t
  | some v => s.setState t v

end CactKernel.Sched
