import CactKernel.Sched.PreserveSwitch

/-! # Runs of the scheduler

`Admissible s a` is the condition on the state before an action under which the
scheduler's bookkeeping is right: a wake-up is of a task that neither runs nor
stays linked, a state is set from outside only on a task that is in no queue,
and no action is one of a task that has been freed. Runs whose actions are all
admissible keep ready queues and sleep queue sound. The runs at the end of the
two sections leave it: one loses a ready task, the other hangs the kernel. -/

set_option autoImplicit false

namespace CactKernel.Sched

open Lib Sync List Option Function Or Reach

/-- The task does not run and is not linked in the sleep queue. -/
def Unlinked (s : Kernel) (t : Tid) : Prop := s.currentTask ≠ some t ∧ ¬ InSleepQueue s t

/-- The struct of the running task has not been freed. -/
def CurrentLive (s : Kernel) : Prop := ∀ t, s.currentTask = some t → s.live t = true

def Admissible (s : Kernel) : Action → Prop
  | .createTask t _ | .createUserTask t _ | .taskFork t _ => s.currentTask ≠ some t
  | .waitpid _ | .sleepTicks _ | .sigsuspend _ | .semaDown _ | .mutexLock _ => CurrentLive s
  | .timerWheelTick => ∀ t, OnWheel s t → s.state t = .sleeping →
      (s.metaOf t).sleepUntil ≤ wrappingAdd s.currentTick 1 → Unlinked s t
  | .checkAlarmTimers => ∀ t, s.currentTask = some t →
      timerDue s.currentTick (s.metaOf t) = true → suspendedFor s t sigAlrm = false
  | .handleSignals => CurrentLive s ∧ ∀ t, s.currentTask = some t → s.state t = .sleeping →
      continues (s.metaOf t) = false
  | .mlfqSleep t => s.state t = .sleeping ∧ Unlinked s t
  | .mlfqWakeTask t => s.currentTask = some t → s.state t ≠ .sleeping ∧ s.state t ≠ .waiting
  | .voluntaryBlock t new => s.state t ≠ .ready ∧ ¬ InSleepQueue s t ∧ new ≠ .ready ∧
      (new = .sleeping → s.currentTask ≠ some t)
  | .setState t code => s.state t ≠ .ready ∧ ¬ InSleepQueue s t ∧
      (TaskState.ofCode code = some .ready → s.currentTask ≠ some t)
  | .signal pid sig => ∀ t, s.currentTask = some t → s.pid t = pid → signalWakes s t sig = false
  | .semaUp i => ∀ w, (s.semaphores i).waiters.head? = some w → s.state w = .sleeping →
      Unlinked s w
  | .mutexWake w => s.state w = .sleeping → Unlinked s w
  | _ => True

section Preservation

variable {cur : Option Tid} {s s' : Kernel} {t : Tid} {fuel : Nat}

section

variable (settled : Settled cur s)

include settled

theorem Settled.mlfqSleepLocked (isSleeping : s.state t = .sleeping)
    (apart : ¬ InSleepQueue s t) (other : cur ≠ some t) :
    Settled cur (mlfqSleepLocked s t) := by
  obtain ⟨ready, asleep, agrees, free⟩ := settled.queued
  rw [agrees.inSleepQueue_iff] at apart
  refine ⟨settled.current, ready, _, agrees.sleep isSleeping apart, fun u isCur => ?_⟩
  refine ⟨(free u isCur).1, ?_⟩
  rw [mem_append, mem_singleton, not_or]
  exact ⟨(free u isCur).2, fun same => other (same ▸ isCur)⟩

theorem Settled.taskVoluntaryBlock {new : TaskState}
    (notReady : s.state t ≠ .ready) (apart : ¬ InSleepQueue s t) (quiet : new ≠ .ready)
    (other : new = .sleeping → cur ≠ some t) (alive : s.live t = true) :
    Settled cur (taskVoluntaryBlock s t new) := by
  unfold Sched.taskVoluntaryBlock
  generalize moved : rewardEarlyBlock s t = s₁
  have settled₁ : Settled cur s₁ ∧ s₁.state = s.state ∧ s₁.live = s.live ∧
      (∀ u, InSleepQueue s₁ u ↔ InSleepQueue s u) := by
    subst moved
    unfold rewardEarlyBlock
    dsimp only
    split
    · obtain ⟨ready, asleep, agrees, free⟩ := settled.queued
      exact ⟨⟨settled.current, ready, asleep, agrees.setPriority _ notReady, free⟩, rfl, rfl,
        fun _ => Iff.rfl⟩
    · exact ⟨settled, rfl, rfl, fun _ => Iff.rfl⟩
  obtain ⟨settled₁, state, live, queued⟩ := settled₁
  have settled₂ : Settled cur (s₁.setTicksUsed t 0) := settled₁.frame rfl
  have settled₃ : Settled cur ((s₁.setTicksUsed t 0).setState t new) := by
    refine settled₂.setState ?_ ?_ quiet (inl ?_)
    · change s₁.state t ≠ .ready
      rwa [state]
    · change ¬ InSleepQueue s₁ t
      rwa [queued]
    · change s₁.live t = true
      rwa [live]
  split
  · rename_i isSleeping
    refine settled₃.mlfqSleepLocked ?_ ?_ (other isSleeping)
    · rw [isSleeping]
      exact update_self ..
    · change ¬ InSleepQueue s₁ t
      rwa [queued]
  · exact settled₃

theorem Settled.taskSetState {code : Nat}
    (notReady : s.state t ≠ .ready) (apart : ¬ InSleepQueue s t)
    (other : TaskState.ofCode code = some .ready → cur ≠ some t) (alive : s.live t = true) :
    Settled cur (taskSetState s t code) := by
  unfold Sched.taskSetState
  cases known : TaskState.ofCode code with
  | none => exact settled
  | some v =>
    cases v with
    | ready => exact settled.makeReady notReady apart (other known) alive
    | running | sleeping | zombie
    | waiting => exact settled.setState notReady apart (by decide) (inl alive)

variable {i : Nat}

theorem Settled.semaUp
    (free : ∀ w, (s.semaphores i).waiters.head? = some w → s.state w = .sleeping →
      cur ≠ some w ∧ ¬ InSleepQueue s w) : Settled cur (semaUp s i) := by
  unfold Sched.semaUp Semaphore.upLocked
  cases known : (s.semaphores i).waiters with
  | nil => exact settled.frame rfl
  | cons w rest =>
    have popped : Settled cur { s with
        semaphores := update s.semaphores i ⟨(s.semaphores i).count, rest⟩ } :=
      settled.frame rfl
    exact popped.wakeWaiter (free w (by rw [known]; rfl))

theorem Settled.blockCurrent (alive : ∀ t, cur = some t → s.live t = true) :
    Settled cur (blockCurrent s) := by
  unfold Sched.blockCurrent
  cases known : s.currentTask with
  | none => exact settled
  | some c =>
    obtain rfl : some c = cur := known.symm.trans settled.current
    exact settled.setState_current (by decide) (inl (alive c rfl))

theorem Settled.semaDown (alive : ∀ t, cur = some t → s.live t = true) :
    Settled cur (semaDown s i) := by
  unfold Sched.semaDown
  dsimp only
  split
  · exact settled.frame rfl
  generalize (s.semaphores i).downLocked s.currentTask = r
  have entered : Settled cur { s with semaphores := update s.semaphores i r.2 } :=
    settled.frame rfl
  split
  · exact entered.blockCurrent alive
  · exact entered

theorem Settled.mutexLock (alive : ∀ t, cur = some t → s.live t = true)
    (run : mutexLock s i = some s') :
    Settled cur s' := by
  unfold Sched.mutexLock at run
  rw [bind_eq_bind] at run
  obtain ⟨⟨outcome, m⟩, _, run⟩ := bind_eq_some_iff.mp run
  have entered : Settled cur { s with mutexes := update s.mutexes i m } :=
    settled.frame rfl
  cases run
  split
  · exact entered.blockCurrent alive
  · exact entered

theorem Settled.mutexUnlock :
    Settled cur (mutexUnlock s i) := by
  unfold Sched.mutexUnlock
  generalize ((s.mutexes i).unlockSection s.currentTask) = r
  obtain ⟨outcome, m⟩ := r
  cases outcome <;> exact settled.frame rfl

end

theorem step_settled {a : Action} (settled : Settled s.currentTask s) (admissible : Admissible s a)
    (run : step fuel s a = some s') : Settled s'.currentTask s' := by
  -- every action but `schedule` leaves the running task
  suffices whole : Settled s.currentTask s' ∨ Settled s'.currentTask s' by
    rcases whole with kept | switched
    · exact kept.current ▸ kept
    · exact switched
  cases a with
  | schedule => exact inr (settled.schedule run)
  | createTask t p | createUserTask t p =>
    simp only [step] at run
    split at run
    · cases run
    rename_i isFree
    cases run
    exact inl (settled.addTask (by simpa using isFree) admissible)
  | taskFork t p =>
    simp only [step] at run
    split at run
    · cases run
    rename_i isFree
    cases run
    refine inl ?_
    unfold taskFork
    split
    · exact settled
    · exact settled.addTask (by simpa using isFree) admissible
  | taskExit code => exact inl (settled.schedTaskExit run)
  | waitpid target => exact inl (settled.schedWaitpid admissible run)
  | reap => exact inl (settled.taskReap run)
  | tickAccounting => exact inl (settled.tickAccounting run)
  | timerWheelTick => exact inl (settled.timerWheelTick admissible run)
  | checkAlarmTimers => exact inl (settled.checkAlarmTimers admissible run)
  | handleSignals =>
    refine inl ?_
    simp only [step, handleCurrentSignals] at run
    cases known : s.currentTask with
    | none =>
      simp only [known, some.injEq] at run
      exact run ▸ known ▸ settled
    | some c =>
      simp only [known] at run settled
      exact settled.taskHandleSignals (admissible.1 c known) (admissible.2 c known) run
  | priorityBoost => exact inl (settled.doPriorityBoost run)
  | wakeExpiredSleepers => exact inl (settled.wakeExpiredSleepers run)
  | mlfqSleep t =>
    simp only [step] at run
    split at run
    · cases run
      exact inl (settled.mlfqSleepLocked admissible.1 admissible.2.2 admissible.2.1)
    · cases run
  | mlfqWakeTask t =>
    simp only [step] at run
    split at run
    · exact inl (settled.mlfqWakeTask admissible run)
    · cases run
  | voluntaryBlock t new =>
    simp only [step] at run
    split at run
    · rename_i alive
      cases run
      obtain ⟨notReady, apart, quiet, other⟩ := admissible
      exact inl (settled.taskVoluntaryBlock notReady apart quiet other alive)
    · cases run
  | setState t code =>
    simp only [step] at run
    split at run
    · rename_i alive
      cases run
      obtain ⟨notReady, apart, other⟩ := admissible
      exact inl (settled.taskSetState notReady apart other alive)
    · cases run
  | sleepTicks ticks =>
    cases run
    exact inl (settled.schedSleepTicks admissible)
  | signal pid sig => exact inl (settled.taskSignalLocked admissible run).1
  | sigaction signum handler =>
    obtain ⟨c, _, rfl⟩ := map_eq_some_iff.mp run
    refine inl (settled.frame ?_)
    unfold taskSigaction
    split
    · rfl
    split
    · rfl
    split <;> rfl
  | sigprocmask how set =>
    obtain ⟨c, _, rfl⟩ := map_eq_some_iff.mp run
    refine inl (settled.frame ?_)
    unfold procctlSigprocmask
    split <;> rfl
  | sigsuspend mask =>
    obtain ⟨c, known, rfl⟩ := map_eq_some_iff.mp run
    refine inl ?_
    rw [known] at settled ⊢
    unfold procctlSigsuspend
    split
    · exact settled
    have masked : Settled (some c) (s.updateMeta c fun m =>
        { m with
          savedSignalMask := m.signalMask
          signalMask := mask &&& ~~~sigUncatchable
          inSigsuspend := true }) := settled.frame rfl
    exact masked.setState_current (by decide) (inl (admissible c known))
  | alarm now seconds | setitimer now v i =>
    obtain ⟨c, _, rfl⟩ := map_eq_some_iff.mp run
    exact inl (settled.frame rfl)
  | semaInit i val =>
    cases run
    exact inl (settled.frame rfl)
  | semaDown i =>
    cases run
    exact inl (settled.semaDown admissible)
  | semaUp i =>
    cases run
    exact inl (settled.semaUp admissible)
  | mutexLock i => exact inl (settled.mutexLock admissible run)
  | mutexTrylock i =>
    obtain ⟨r, _, rfl⟩ := map_eq_some_iff.mp run
    exact inl (settled.frame rfl)
  | mutexUnlock i =>
    cases run
    exact inl settled.mutexUnlock
  | mutexWake w =>
    simp only [step] at run
    split at run
    · cases run
      have taken : Settled s.currentTask { s with handOffs := s.handOffs.erase w } :=
        settled.frame rfl
      exact inl (taken.wakeWaiter admissible)
    · cases run

theorem initScheduler_settled (idle : Tid) : Settled (some idle) (initScheduler idle) := by
  refine ⟨rfl, fun _ => [], [], ⟨fun _ => holds_empty _, holds_empty _, by simp, ?_, by simp,
    by simp, ?_⟩, ?_⟩
  · intro t isReady
    simp only [initScheduler] at isReady
    split at isReady <;> exact absurd isReady (by decide)
  · intro t isDead
    simp only [initScheduler, decide_eq_false_iff_not] at isDead
    simp [initScheduler, isDead]
  · intro t isCur
    cases isCur
    simp [initScheduler]

/-- States reached by runs whose actions are all admissible. -/
def AdmissibleRun (s : Kernel) : Prop := Reach Initial (restrict Admissible Step) s

theorem AdmissibleRun.settled (run : AdmissibleRun s) : Settled s.currentTask s := by
  refine invariant (fun s => Settled s.currentTask s) ?_ ?_ run
  · rintro s ⟨idle, rfl⟩
    exact initScheduler_settled idle
  · intro s a t settled move
    obtain ⟨admissible, fuel, stepped⟩ := move
    exact step_settled settled admissible stepped

end Preservation

/-! ## Ready tasks are queued -/

/-- Every ready task is linked in the ready queue of its priority, once, and in no other; the
running task is linked in none. -/
def ReadyAgreement (s : Kernel) : Prop :=
  ∃ ready : Nat → List Tid,
    (∀ i < mlfqLevels, Chain s.queueNext (s.queues i).head (ready i)) ∧
    (∀ t, s.live t = true → s.state t = .ready → s.priority t < mlfqLevels ∧
      ∀ i < mlfqLevels, (ready i).count t = if i = s.priority t then 1 else 0) ∧
    (∀ t, s.currentTask = some t → ∀ i < mlfqLevels, t ∉ ready i)

theorem ready_queues_agree {s : Kernel} (run : AdmissibleRun s) : ReadyAgreement s := by
  obtain ⟨ready, asleep, agrees, free⟩ := run.settled.queued
  refine ⟨ready, fun i _ => (agrees.readyHolds i).chain, ?_, ?_⟩
  · intro t _ isReady
    obtain ⟨small, member⟩ := agrees.mem_ready t isReady not_mem_nil
    refine ⟨small, fun i _ => ?_⟩
    by_cases same : i = s.priority t
    · rw [if_pos same, same]
      exact count_eq_one_of_mem (agrees.readyHolds _).nodup member
    · rw [if_neg same, count_eq_zero]
      exact fun here => same (agrees.of_mem_ready i t here).2.symm
  · intro t isCur i _
    exact agrees.not_mem_ready (free t isCur).1 i

theorem created : AdmissibleRun (createTask (initScheduler 0) 1 1) :=
  .next (a := Action.createTask 1 1) (.start ⟨0, rfl⟩) ⟨by simp [Admissible, initScheduler], 0, rfl⟩

/-- A run that puts a new task on the processor and the idle task into the ready queues. -/
theorem ready_queues_agree_first_switch :
    ∃ s, AdmissibleRun s ∧ s.currentTask = some 1 ∧ s.state 0 = .ready ∧ ReadyAgreement s := by
  have run := created.next (a := Action.schedule) ⟨trivial, 3, rfl⟩
  exact ⟨_, run, rfl, rfl, ready_queues_agree run⟩

theorem step_fueled (fuel : Nat) (s : Kernel) (a : Action) (t : Kernel)
    (run : step fuel s a = some t) : Step s a t := ⟨fuel, run⟩

/-- The running task blocks and is woken before it has given up the processor: `schedule` takes
it off its queue, finds it running and returns, and the next `schedule` switches away from it. -/
def lostTaskRun : List Action :=
  [.createTask 1 1, .schedule, .voluntaryBlock 1 .waiting, .mlfqWakeTask 1, .schedule, .schedule]

theorem ready_task_lost :
    ∃ s, Reach Initial Step s ∧ s.live 1 = true ∧ s.state 1 = .ready ∧ s.currentTask = some 0 ∧
      (∀ i < mlfqLevels, ¬ Linked s.queueNext (s.queues i).head 1) ∧ ¬ ReadyAgreement s := by
  obtain ⟨s, reached, live, isReady, current, empty⟩ := exists_of_run Initial (step 6)
    (step_fueled 6) ⟨0, rfl⟩ lostTaskRun (fun s => s.live 1 = true ∧
      s.state 1 = .ready ∧ s.currentTask = some 0 ∧ ∀ i < mlfqLevels, (s.queues i).head = none)
    (by decide +kernel)
  have unlinked : ∀ i < mlfqLevels, ¬ Linked s.queueNext (s.queues i).head 1 := by
    intro i small linked
    rw [empty i small] at linked
    cases linked
  refine ⟨s, reached, live, isReady, current, unlinked, ?_⟩
  rintro ⟨ready, chains, queued, _⟩
  obtain ⟨small, counts⟩ := queued 1 live isReady
  have one := counts (s.priority 1) small
  rw [if_pos rfl] at one
  have member : 1 ∈ ready (s.priority 1) := count_pos_iff.mp (by omega)
  exact unlinked _ small ((chains _ small).linked_iff.mpr member)

/-! ## The sleep queue -/

/-- No task is linked in two queues, the sleep queue is a list without repetition, and the walk
over it comes to an end. -/
def SleepQueueSound (s : Kernel) : Prop :=
  ∃ (ready : Nat → List Tid) (asleep : List Tid),
    (∀ i < mlfqLevels, Chain s.queueNext (s.queues i).head (ready i)) ∧
    Chain s.queueNext s.sleepQueue.head asleep ∧ asleep.Nodup ∧
    (∀ i < mlfqLevels, ∀ t ∈ asleep, t ∉ ready i) ∧
    (∀ i < mlfqLevels, ∀ j < mlfqLevels, i ≠ j → ∀ t ∈ ready i, t ∉ ready j) ∧
    ∃ fuel s', wakeExpiredSleepers fuel s = some s'

theorem sleep_queue_sound {s : Kernel} (run : AdmissibleRun s) : SleepQueueSound s := by
  obtain ⟨ready, asleep, agrees, free⟩ := run.settled.queued
  refine ⟨ready, asleep, fun i _ => (agrees.readyHolds i).chain, agrees.sleepHolds.chain,
    agrees.sleepHolds.nodup, fun i _ => agrees.apart i, ?_,
    run.settled.wakeExpiredSleepers_returns⟩
  intro i _ j _ different
  exact agrees.levels_apart different

/-- A run that leaves a task in the sleep queue. -/
theorem sleep_queue_sound_sleeper :
    ∃ s, AdmissibleRun s ∧ s.sleepQueue.head = some 1 ∧ SleepQueueSound s := by
  have running := created.next (a := Action.schedule) ⟨trivial, 3, rfl⟩
  have sleeping := running.next (a := Action.sleepTicks 2)
    ⟨fun _ current => (by cases current; rfl), 0, rfl⟩
  have run := sleeping.next (a := Action.schedule) ⟨trivial, 3, rfl⟩
  exact ⟨_, run, rfl, sleep_queue_sound run⟩

/-- A task linked to itself keeps `wake_expired_sleepers` busy for ever. -/
theorem wakeExpiredSleepers_cycle {s : Kernel} {t : Tid} (head : s.sleepQueue.head = some t)
    (loop : s.queueNext t = some t)
    (early : ¬ ((s.metaOf t).sleepUntil ≠ 0 ∧ (s.metaOf t).sleepUntil ≤ s.currentTick)) :
    ∀ fuel, wakeExpiredSleepers fuel s = none := by
  have around : ∀ fuel prev,
      walk (wakeExpiredBody s.currentTick) fuel (some t) (prev, s) = none := by
    intro fuel
    induction fuel with
    | zero => intro prev; rfl
    | succ fuel ih =>
      intro prev
      have body : wakeExpiredBody s.currentTick t (prev, s) = some (some t, some t, s) := by
        simp only [wakeExpiredBody, if_neg early, loop]
      simp only [walk, body, bind_some]
      exact ih (some t)
  intro fuel
  rw [wakeExpiredSleepers, head, around fuel none]
  rfl

/-- A task sleeps for one tick and is woken by the timer wheel, which leaves it in the sleep
queue. -/
def doubleLinkRun : List Action :=
  [.createTask 1 1, .schedule, .sleepTicks 1, .schedule, .timerWheelTick]

/-- The same task goes to sleep a second time. -/
def secondSleepRun : List Action :=
  doubleLinkRun ++ [.schedule, .sleepTicks 5, .schedule]

theorem sleep_queue_cycle :
    (∃ s, Reach Initial Step s ∧ Linked s.queueNext (s.queues 1).head 1 ∧ InSleepQueue s 1) ∧
      ∃ s, Reach Initial Step s ∧ (∀ fuel, wakeExpiredSleepers fuel s = none) ∧
        ¬ SleepQueueSound s := by
  constructor
  · exact ⟨_, .of_foldlM (step_fueled 6) doubleLinkRun (.start ⟨0, rfl⟩) rfl, .here 1, .here 1⟩
  · have unsound : ∀ s, (∀ fuel, wakeExpiredSleepers fuel s = none) → ¬ SleepQueueSound s := by
      rintro s hangs ⟨_, _, _, _, _, _, _, fuel, s', returned⟩
      cases (hangs fuel).symm.trans returned
    refine ⟨_, .of_foldlM (step_fueled 6) secondSleepRun (.start ⟨0, rfl⟩) rfl, ?_⟩
    exact (and_iff_left_of_imp (unsound _)).mpr
      (wakeExpiredSleepers_cycle (t := 1) rfl rfl (by decide))

/-! ## Which task runs next -/

theorem Agrees.pickFrom {s : Kernel} {ready : Nat → List Tid} {asleep : List Tid}
    (agrees : Agrees s [] ready asleep) (levels : List Nat) :
    ∃ s', pickFrom levels s = some (levels.findSome? fun i => (ready i).head?, s') := by
  induction levels with
  | nil => exact ⟨s, rfl⟩
  | cons i levels ih =>
    cases front : ready i with
    | nil => simpa [Sched.pickFrom, agrees.popLevel_nil front, front] using ih
    | cons t rest =>
      obtain ⟨s', popped, -⟩ := agrees.popLevel_cons front
      exact ⟨s', by simp [Sched.pickFrom, popped, front]⟩

/-- The levels hold the ready tasks, each at its priority, and the first task of the most urgent
level that has one is picked. -/
theorem pick_next_most_urgent {s : Kernel} (run : AdmissibleRun s) :
    ∃ ready : Nat → List Tid, ∃ s', (∀ i, Holds s.queueNext (s.queues i) (ready i)) ∧
      (∀ i, ∀ t ∈ ready i, s.state t = .ready ∧ s.priority t = i) ∧
      (∀ t, s.state t = .ready → s.priority t < mlfqLevels ∧ t ∈ ready (s.priority t)) ∧
      pickNextTask s = some ((range mlfqLevels).findSome? fun i => (ready i).head?, s') := by
  obtain ⟨ready, asleep, agrees, -⟩ := run.settled.queued
  obtain ⟨s', picked⟩ := agrees.pickFrom (range mlfqLevels)
  refine ⟨ready, s', agrees.readyHolds, agrees.of_mem_ready, fun t isReady => ?_, picked⟩
  exact agrees.mem_ready t isReady not_mem_nil

/-- The idle task and a new one are ready, at different levels. -/
theorem pick_next_most_urgent_created : ∃ s, AdmissibleRun s ∧ s.state 0 = .ready ∧
    s.state 2 = .ready ∧ s.priority 2 < s.priority 0 ∧ ∃ ready : Nat → List Tid,
      0 ∈ ready (s.priority 0) ∧ 2 ∈ ready (s.priority 2) ∧
      (range mlfqLevels).findSome? (fun i => (ready i).head?) = some 2 := by
  have run := (created.next (a := Action.schedule) ⟨trivial, 3, rfl⟩).next
    (a := Action.createTask 2 2) ⟨by simp [Admissible], 0, rfl⟩
  obtain ⟨ready, s', -, -, queued, picked⟩ := pick_next_most_urgent run
  refine ⟨_, run, rfl, rfl, by decide, ready, (queued 0 rfl).2, (queued 2 rfl).2, ?_⟩
  exact (congrArg Prod.fst (some.inj picked)).symm

end CactKernel.Sched
