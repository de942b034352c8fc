import CactKernel.Sched.Signal
import CactKernel.Lib.Reach

/-! # The scheduler as a transition system

Tasks are created, forked, exit and are reaped; `schedule` and the timer tick
switch between them; the sleeping locks put the current task to sleep and make
waiters ready. Every action is one section of the kernel that runs under
`SCHEDULER_LOCK` (or, where the source takes no lock, the statements up to the
next call of `schedule`); runs interleave them in any order. -/

set_option autoImplicit false

namespace CactKernel.Sched

open Lib Sync Option Function

/-! ## Creating, ending and freeing tasks -/

/-- Fills the struct at `t` and its metadata at `p` and lists the task. -/
def addTask (s : Kernel) (t : Tid) (p : Nat) (isKernel : Bool) (priority ticks : Nat)
    (m : ProcMeta) : Kernel :=
  let s := { s with
    live := update s.live t true
    isKernel := update s.isKernel t isKernel
    pid := update s.pid t s.nextPid
    nextPid := s.nextPid + 1
    proc := update s.proc t p
    procMeta := update s.procMeta p m
    ticksUsed := update s.ticksUsed t ticks
    queueNext := update s.queueNext t none
    priority := update s.priority t priority }
  makeReady (taskListAdd s t) t

/-- `create_task` when `kmalloc` returned `t` and `p`. -/
def createTask (s : Kernel) (t : Tid) (p : Nat) : Kernel :=
  addTask s t p true mlfqLevelInteractive 0 {}

/-- The user-mode creators: the current task is the parent. -/
def createUserTask (s : Kernel) (t : Tid) (p : Nat) : Kernel :=
  let parent := match s.currentTask with
    | none => 0
    | some cur => s.pid cur
  addTask s t p false mlfqLevelInteractive 0 { parentPid := parent }

/-- The scheduling part of `task_fork`: struct and metadata are copied from the parent. -/
def taskFork (s : Kernel) (child : Tid) (p : Nat) : Kernel :=
  match s.currentTask with
  | none => s
  | some parent =>
    let m := s.metaOf parent
    addTask s child p (s.isKernel parent) (s.priority parent) (s.ticksUsed parent)
      { m with
        parentPid := s.pid parent
        exitCode := 0
        sleepUntil := 0
        pendingSignals := 0
        waitNext := none }

def orphanBody (myPid : Nat) (child : Tid) (s : Kernel) : Option (Option Tid × Kernel) :=
  let next := s.next child
  if (s.metaOf child).parentPid = myPid then
    some (next, s.updateMeta child fun m => { m with parentPid := 0 })
  else some (next, s)

/-- `sched_task_exit` up to its call of `schedule`. -/
def schedTaskExit (fuel : Nat) (s : Kernel) (exitCode : Int) : Option Kernel :=
  match s.currentTask with
  | none => some s
  | some t =>
    let s := (s.updateMeta t fun m => { m with exitCode := exitCode }).setState t .zombie
    walk (orphanBody (s.pid t)) fuel s.taskListHead s

/-- `reap_task_free`: a task without metadata is left alone. -/
def reapTaskFree (s : Kernel) (t : Tid) : Kernel :=
  if s.proc t = 0 then s else { s with live := update s.live t false }

/-- The walk of `sched_waitpid`: the zombie child it finds, and whether it has seen a child. -/
def findChild (s : Kernel) (parent : Nat) (target : Int) :
    Nat → Option Tid → Bool → Option (Option Tid × Bool)
  | 0, _, _ => none
  | _ + 1, none, seen => some (none, seen)
  | fuel + 1, some t, seen =>
    if (s.metaOf t).parentPid = parent ∧ (target ≤ 0 ∨ (s.pid t : Int) = target) then
      if s.state t = .zombie then some (some t, true)
      else findChild s parent target fuel (s.next t) true
    else findChild s parent target fuel (s.next t) seen

/-- One round of `sched_waitpid` up to its return or its call of `schedule`. -/
def schedWaitpid (fuel : Nat) (s : Kernel) (target : Int) : Option Kernel :=
  match s.currentTask with
  | none => some s
  | some cur => do
    match ← findChild s (s.pid cur) target fuel s.taskListHead false with
    | (some t, _) =>
      let s ← taskListRemove fuel s t
      some (reapTaskFree s t)
    | (none, true) => some (s.setState cur .waiting)
    | (none, false) => some s

/-- A task whose parent is gone. -/
def orphaned (fuel : Nat) (s : Kernel) (t : Tid) : Option Bool :=
  let parent := (s.metaOf t).parentPid
  if parent = 0 then some true else (findTaskByPid fuel s parent).map (·.isNone)

/-- One task of the walk of `task_reap`; the list holds what is to be freed. -/
def reapBody (fuel : Nat) (cur : Tid) (w : List Tid × Kernel) :
    Option (Option Tid × List Tid × Kernel) :=
  let (toReap, s) := w
  if toReap.length < 64 then
    let next := s.next cur
    if s.state cur = .zombie then do
      if ← orphaned fuel s cur then
        let s ← taskListRemove fuel s cur
        some (next, toReap ++ [cur], s)
      else some (next, toReap, s)
    else some (next, toReap, s)
  else some (none, toReap, s)

def taskReap (fuel : Nat) (s : Kernel) : Option Kernel := do
  let (toReap, s) ← walk (reapBody fuel) fuel s.taskListHead ([], s)
  some (toReap.foldl reapTaskFree s)

/-! ## Switching -/

/-- A zombie that gives up the processor tells its parent. -/
def notifyParent (fuel : Nat) (s : Kernel) (prev : Tid) : Option Kernel :=
  if s.state prev = .zombie then
    let parentPid := (s.metaOf prev).parentPid
    if parentPid ≠ 0 then do
      let s ← taskSignalLocked fuel s parentPid sigChld
      match ← findTaskByPid fuel s parentPid with
      | none => some s
      | some parent => some (if s.state parent = .waiting then makeReady s parent else s)
    else some s
  else some s

/-- The task that gives up the processor goes where its state says. -/
def putPrev (s : Kernel) (prev : Tid) : Kernel :=
  match s.state prev with
  | .running => makeReady s prev
  | .sleeping => mlfqSleepLocked s prev
  | .waiting | .zombie | .ready => s

def scheduleLocked (fuel : Nat) (s : Kernel) : Option Kernel :=
  match s.currentTask with
  | none => some s
  | some prev =>
    if s.taskListHead = none then some s
    else do
      let s ← notifyParent fuel s prev
      let s ← wakeExpiredSleepers fuel s
      match ← pickNextTask s with
      | (none, s) => some s
      | (some next, s) =>
        if next = prev then some s
        else
          let s := (putPrev s prev).setState next .running
          some { s with currentTask := some next }

/-- `schedule` up to the switch: every 128th call reaps first. -/
def schedule (fuel : Nat) (s : Kernel) : Option Kernel := do
  let counter := s.reapCounter
  let s := { s with reapCounter := (counter + 1) % 2 ^ 32 }
  let s ← if counter % 128 = 127 then taskReap fuel s else some s
  scheduleLocked fuel s

/-- What runs when a task has been switched to, and at the end of a timer tick. -/
def handleCurrentSignals (fuel : Nat) (s : Kernel) : Option Kernel :=
  match s.currentTask with
  | none => some s
  | some cur => taskHandleSignals fuel s cur

def needPreempt (s : Kernel) (cur : Tid) : Bool :=
  mlfqQuantum (min (s.priority cur) (mlfqLevels - 1)) ≤ s.ticksUsed cur + 1

def tickCurrent (s : Kernel) (cur : Tid) : Kernel :=
  if needPreempt s cur then
    let s :=
      if s.priority cur ≠ mlfqLevelRt ∧ s.priority cur < mlfqLevelBackground then
        s.setPriority cur (s.priority cur + 1)
      else s
    s.setTicksUsed cur 0
  else s.setTicksUsed cur (s.ticksUsed cur + 1)

/-- The first section of `on_timer_tick`: quantum, demotion and boost. -/
def tickAccounting (fuel : Nat) (s : Kernel) : Option Kernel :=
  match s.currentTask with
  | none => some s
  | some cur =>
    let s := tickCurrent s cur
    let counter := min (s.boostCounter + 1) (2 ^ 32 - 1)
    if boostInterval ≤ counter then doPriorityBoost fuel { s with boostCounter := 0 }
    else some { s with boostCounter := counter }

def onTimerTick (fuel : Nat) (s : Kernel) : Option Kernel :=
  match s.currentTask with
  | none => some s
  | some cur => do
    let preempt := needPreempt s cur
    let s ← tickAccounting fuel s
    let s ← timerWheelTick fuel s
    let s ← checkAlarmTimers fuel s
    let s ← handleCurrentSignals fuel s
    if preempt then schedule fuel s else some s

/-! ## Sleeping locks -/

/-- `sema_up` and `mutex_unlock` make a waiter ready without unlinking it. -/
def wakeWaiter (s : Kernel) (woken : Tid) : Kernel :=
  if s.state woken = .sleeping then makeReady s woken else s

/-- `task_state_set(cur, Sleeping)` of a lock's wait loop. -/
def blockCurrent (s : Kernel) : Kernel :=
  match s.currentTask with
  | none => s
  | some cur => s.setState cur .sleeping

/-- One round of `down` by the current task. -/
def semaDown (s : Kernel) (i : Nat) : Kernel :=
  let sem := s.semaphores i
  if 0 < sem.count then
    { s with semaphores := update s.semaphores i { sem with count := sem.count - 1 } }
  else
    let (outcome, sem) := sem.downLocked s.currentTask
    let s := { s with semaphores := update s.semaphores i sem }
    if outcome = .sleep then blockCurrent s else s

def semaUp (s : Kernel) (i : Nat) : Kernel :=
  let (woken, sem) := (s.semaphores i).upLocked
  let s := { s with semaphores := update s.semaphores i sem }
  match woken with
  | some w => wakeWaiter s w
  | none => s

/-- One round of `mutex_lock` by the current task. -/
def mutexLock (s : Kernel) (i : Nat) : Option Kernel := do
  let (outcome, m) ← (s.mutexes i).lockSection s.currentTask
  let s := { s with mutexes := update s.mutexes i m }
  some (if outcome = .sleep then blockCurrent s else s)

/-- `mutex_unlock` under the guard; the waiter it has made owner is woken by `mutexWake`. -/
def mutexUnlock (s : Kernel) (i : Nat) : Kernel :=
  let (outcome, m) := (s.mutexes i).unlockSection s.currentTask
  let s := { s with mutexes := update s.mutexes i m }
  match outcome with
  | .handOff woken => { s with handOffs := s.handOffs ++ [woken] }
  | _ => s

def mutexWake (s : Kernel) (woken : Tid) : Kernel :=
  wakeWaiter { s with handOffs := s.handOffs.erase woken } woken

/-! ## Actions -/

inductive Action
  | createTask (t : Tid) (p : Nat)
  | createUserTask (t : Tid) (p : Nat)
  | taskFork (t : Tid) (p : Nat)
  | taskExit (code : Int)
  | waitpid (target : Int)
  | reap
  | schedule
  | tickAccounting
  | timerWheelTick
  | checkAlarmTimers
  | handleSignals
  | priorityBoost
  | wakeExpiredSleepers
  | mlfqSleep (t : Tid)
  | mlfqWakeTask (t : Tid)
  | voluntaryBlock (t : Tid) (new : TaskState)
  | setState (t : Tid) (code : Nat)
  | sleepTicks (ticks : Nat)
  | signal (pid : Nat) (sig : BitVec 32)
  | sigaction (signum handler : Nat)
  | sigprocmask (how : Nat) (set : BitVec 32)
  | sigsuspend (mask : BitVec 32)
  | alarm (now seconds : Nat)
  | setitimer (now valueMs intervalMs : Nat)
  | semaInit (i : Nat) (val : Int)
  | semaDown (i : Nat)
  | semaUp (i : Nat)
  | mutexLock (i : Nat)
  | mutexTrylock (i : Nat)
  | mutexUnlock (i : Nat)
  | mutexWake (woken : Tid)

/-- An action of the current task. -/
def byCurrent (s : Kernel) (f : Tid → Kernel) : Option Kernel :=
  s.currentTask.map f

/-- One action. Structs are allocated at free addresses, and an action on a task is one on a
task that exists. -/
def step (fuel : Nat) (s : Kernel) : Action → Option Kernel
  | .createTask t p => if s.live t then none else some (createTask s t p)
  | .createUserTask t p => if s.live t then none else some (createUserTask s t p)
  | .taskFork t p => if s.live t then none else some (taskFork s t p)
  | .taskExit code => schedTaskExit fuel s code
  | .waitpid target => schedWaitpid fuel s target
  | .reap => taskReap fuel s
  | .schedule => schedule fuel s
  | .tickAccounting => tickAccounting fuel s
  | .timerWheelTick => timerWheelTick fuel s
  | .checkAlarmTimers => checkAlarmTimers fuel s
  | .handleSignals => handleCurrentSignals fuel s
  | .priorityBoost => doPriorityBoost fuel s
  | .wakeExpiredSleepers => wakeExpiredSleepers fuel s
  | .mlfqSleep t => if s.live t then some (mlfqSleepLocked s t) else none
  | .mlfqWakeTask t => if s.live t then mlfqWakeTask fuel s t else none
  | .voluntaryBlock t new => if s.live t then some (taskVoluntaryBlock s t new) else none
  | .setState t code => if s.live t then some (taskSetState s t code) else none
  | .sleepTicks ticks => some (schedSleepTicks s ticks)
  | .signal pid sig => taskSignalLocked fuel s pid sig
  | .sigaction signum handler => byCurrent s (taskSigaction s · signum handler)
  | .sigprocmask how set => byCurrent s (procctlSigprocmask s · how set)
  | .sigsuspend mask => byCurrent s (procctlSigsuspend s · mask)
  | .alarm now seconds => byCurrent s (procctlAlarm s · now seconds)
  | .setitimer now v i => byCurrent s (procctlSetitimer s · now v i)
  | .semaInit i val =>
    some { s with semaphores := update s.semaphores i (Sync.semaInit val) }
  | .semaDown i => some (semaDown s i)
  | .semaUp i => some (semaUp s i)
  | .mutexLock i => mutexLock s i
  | .mutexTrylock i => ((s.mutexes i).trylock s.currentTask).map fun r =>
    { s with mutexes := update s.mutexes i r.2 }
  | .mutexUnlock i => some (mutexUnlock s i)
  | .mutexWake w => if w ∈ s.handOffs then some (mutexWake s w) else none

def Step (s : Kernel) (a : Action) (t : Kernel) : Prop := ∃ fuel, step fuel s a = some t

def Initial (s : Kernel) : Prop := ∃ idle, s = initScheduler idle

/-- The sections of `on_timer_tick` are actions, so a whole tick is a run. -/
theorem onTimerTick_reach {init : Kernel → Prop} {fuel : Nat} {s t : Kernel}
    (reached : Reach init Step s) (run : onTimerTick fuel s = some t) : Reach init Step t := by
  unfold onTimerTick at run
  cases cur : s.currentTask with
  | none =>
    simp only [cur, some.injEq] at run
    exact run ▸ reached
  | some c =>
    simp only [cur, bind_eq_bind] at run
    obtain ⟨s₁, first, run⟩ := bind_eq_some_iff.mp run
    obtain ⟨s₂, second, run⟩ := bind_eq_some_iff.mp run
    obtain ⟨s₃, third, run⟩ := bind_eq_some_iff.mp run
    obtain ⟨s₄, fourth, run⟩ := bind_eq_some_iff.mp run
    have reached₁ := reached.next (a := Action.tickAccounting) ⟨fuel, first⟩
    have reached₂ := reached₁.next (a := Action.timerWheelTick) ⟨fuel, second⟩
    have reached₃ := reached₂.next (a := Action.checkAlarmTimers) ⟨fuel, third⟩
    have reached₄ := reached₃.next (a := Action.handleSignals) ⟨fuel, fourth⟩
    split at run
    · exact reached₄.next (a := Action.schedule) ⟨fuel, run⟩
    · exact some.inj run ▸ reached₄

end CactKernel.Sched
