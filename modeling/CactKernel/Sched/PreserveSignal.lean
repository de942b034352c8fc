import CactKernel.Sched.Preserve

/-! # Signals, alarms and the timer wheel keep the invariant

The current task must not be woken while it still runs. A signal is delivered
to the current task itself by `task_handle_signals`, which may end it or put it
to sleep; the one thing it must not do is make it ready. -/

set_option autoImplicit false

namespace CactKernel.Sched

open Lib Sync Option Function

/-- A signal to `t` makes it ready. -/
def signalWakes (s : Kernel) (t : Tid) (signal : BitVec 32) : Bool :=
  if signal &&& (sigKill ||| sigStop) ≠ 0 then s.state t = .sleeping || s.state t = .waiting
  else suspendedFor s t signal

/-- An alarm or an interval timer of the task is due. -/
def timerDue (now : Nat) (m : ProcMeta) : Bool :=
  (m.alarmTicks ≠ 0 && m.alarmTicks ≤ now) || (m.itimerValue ≠ 0 && m.itimerValue ≤ now)

/-- Looking at its signals would let a stopped task go on: `SIGCONT` is the first that counts. -/
def continues (m : ProcMeta) : Bool :=
  let m := endSigsuspend m
  m.pendingSignals &&& sigKill = 0 && m.pendingSignals &&& sigStop = 0 &&
    (m.pendingSignals &&& ~~~m.signalMask) &&& sigCont ≠ 0

section Signals

variable {cur : Option Tid} {s s' : Kernel} {t : Tid} {fuel : Nat}

/-! ## Delivery to another task -/

variable {f : ProcMeta → ProcMeta}

theorem inSigsuspend_updateMeta (s : Kernel) (t : Tid)
    (kept : ∀ m, (f m).inSigsuspend = m.inSigsuspend) (p : Nat) :
    ((s.updateMeta t f).procMeta p).inSigsuspend = (s.procMeta p).inSigsuspend :=
  (forall_update_iff s.procMeta (p := fun p m => m.inSigsuspend =
    (s.procMeta p).inSigsuspend)).mpr ⟨kept _, fun _ _ => rfl⟩ p

/-- What a signal to some task leaves alone. -/
structure Signalled (cur : Option Tid) (s s' : Kernel) : Prop where
  proc : s'.proc = s.proc
  inSigsuspend : ∀ p, (s'.procMeta p).inSigsuspend = (s.procMeta p).inSigsuspend
  current : ∀ c, cur = some c → s'.state c = s.state c

theorem Settled.taskSignalLocked {pid : Nat} {signal : BitVec 32} (settled : Settled cur s)
    (other : ∀ c, cur = some c → s.pid c = pid → signalWakes s c signal = false)
    (run : taskSignalLocked fuel s pid signal = some s') :
    Settled cur s' ∧ Signalled cur s s' := by
  unfold Sched.taskSignalLocked at run
  by_cases skip : s.taskListHead = none ∨ pid = 0
  · rw [if_pos skip] at run
    cases run
    exact ⟨settled, rfl, fun _ => rfl, fun _ _ => rfl⟩
  rw [if_neg skip, bind_eq_bind] at run
  obtain ⟨found, search, run⟩ := bind_eq_some_iff.mp run
  cases found with
  | none =>
    cases run
    exact ⟨settled, rfl, fun _ => rfl, fun _ _ => rfl⟩
  | some t =>
    dsimp only at run
    generalize marked : (s.updateMeta t fun m =>
      { m with pendingSignals := m.pendingSignals ||| signal }) = s₁ at run
    have pidEq : s.pid t = pid := findFrom_pid search
    have settled₁ : Settled cur s₁ := settled.frame (by rw [← marked]; rfl)
    have state : s₁.state = s.state := by rw [← marked]; rfl
    have noted : Signalled cur s s₁ := by
      subst marked
      exact ⟨rfl, inSigsuspend_updateMeta s t fun _ => rfl, fun _ _ => rfl⟩
    have suspended : suspendedFor s₁ t signal = suspendedFor s t signal := by
      have metaEq : s₁.metaOf t = { s.metaOf t with
          pendingSignals := (s.metaOf t).pendingSignals ||| signal } := by
        rw [← marked, metaOf_updateMeta_self]
      simp only [suspendedFor, state, metaEq]
    -- the wake-ups of this call are of `t`, and then `t` does not run
    have wake : ∀ s₂, Settled cur s₂ → Woke s₁ s₂ t → cur ≠ some t →
        Settled cur s₂ ∧ Signalled cur s s₂ := by
      intro s₂ settled₂ woke notCurrent
      refine ⟨settled₂, woke.proc.trans noted.proc, fun p => ?_, fun c isCur => ?_⟩
      · rw [woke.procMeta]
        exact noted.inSigsuspend p
      · rw [woke.state c fun same => notCurrent (same ▸ isCur)]
        exact noted.current c isCur
    have notCurrent : signalWakes s t signal = true → cur ≠ some t := by
      intro wakes isCur
      rw [other t isCur pidEq] at wakes
      exact absurd wakes (by decide)
    by_cases hard : signal &&& (sigKill ||| sigStop) ≠ 0
    · rw [if_pos hard] at run
      cases known : s₁.state t with
      | sleeping =>
        simp only [known] at run
        have different := notCurrent (by rw [signalWakes, if_pos hard, ← state, known]; rfl)
        obtain ⟨settled₂, woke⟩ := settled₁.wakeSleeper known different run
        exact wake s' settled₂ woke different
      | waiting =>
        simp only [known, some.injEq] at run
        subst run
        have different := notCurrent (by rw [signalWakes, if_pos hard, ← state, known]; rfl)
        exact wake _ (settled₁.wakeWaiting known different)
          ⟨rfl, rfl, fun u apart => update_of_ne apart ..⟩ different
      | ready | running | zombie =>
        simp only [known, some.injEq] at run
        exact run ▸ ⟨settled₁, noted⟩
    · rw [if_neg hard] at run
      split at run
      · rename_i isSuspended
        have different := notCurrent (by
          rw [signalWakes, if_neg hard, ← suspended]
          exact isSuspended)
        have isSleeping : s₁.state t = .sleeping := by
          simp only [suspendedFor, Bool.and_eq_true, decide_eq_true_eq] at isSuspended
          exact isSuspended.1.2
        obtain ⟨settled₂, woke⟩ := settled₁.wakeSleeper isSleeping different run
        exact wake s' settled₂ woke different
      · cases run
        exact ⟨settled₁, noted⟩

/-- `SIGCHLD` never wakes a task that is not in `sigsuspend`. -/
theorem signalWakes_sigChld (s : Kernel) (t : Tid) (outside : (s.metaOf t).inSigsuspend = false) :
    signalWakes s t sigChld = false := by
  have soft : ¬ sigChld &&& (sigKill ||| sigStop) ≠ 0 := by decide
  rw [signalWakes, if_neg soft, suspendedFor, outside]
  rfl

/-! ## Delivery to the current task -/

/-- The current task while it goes through its deliverable signals. -/
structure Handling (t : Tid) (deliverable : BitVec 32) (s : Kernel) : Prop where
  settled : Settled (some t) s
  outside : (s.metaOf t).inSigsuspend = false
  stays : s.state t = .sleeping → deliverable &&& sigCont = 0

variable {deliverable : BitVec 32}

theorem Handling.updateMeta (handling : Handling t deliverable s)
    (kept : ∀ m, (f m).inSigsuspend = m.inSigsuspend) :
    Handling t deliverable (s.updateMeta t f) := by
  refine ⟨handling.settled.frame rfl, ?_, handling.stays⟩
  rw [metaOf_updateMeta_self, kept]
  exact handling.outside

theorem Handling.terminate {pid : Nat}
    (handling : Handling t deliverable s)
    (run : taskSignalLocked fuel s pid sigChld = some s') :
    Handling t deliverable (s'.setState t .zombie) := by
  have quiet : ∀ c, some t = some c → s.pid c = pid → signalWakes s c sigChld = false := by
    intro c isCur _
    cases isCur
    exact signalWakes_sigChld s t handling.outside
  obtain ⟨settled, signalled⟩ := handling.settled.taskSignalLocked quiet run
  refine ⟨settled.setState_current (by decide) (Or.inr rfl), ?_, ?_⟩
  · change (s'.procMeta (s'.proc t)).inSigsuspend = false
    rw [signalled.proc, signalled.inSigsuspend]
    exact handling.outside
  · intro isSleeping
    rw [show (s'.setState t .zombie).state t = .zombie from update_self ..] at isSleeping
    exact absurd isSleeping (by decide)

theorem Handling.handleSignalBit {sig : BitVec 32} {idx : Nat} {term : Bool}
    (handling : Handling t deliverable s)
    (run : handleSignalBit fuel t deliverable sig idx term s = some s') :
    Handling t deliverable s' := by
  unfold Sched.handleSignalBit at run
  by_cases absent : deliverable &&& sig = 0
  · rw [if_pos absent] at run
    exact some.inj run ▸ handling
  rw [if_neg absent] at run
  by_cases isZombie : s.state t = .zombie
  · rw [if_pos isZombie] at run
    exact some.inj run ▸ handling
  rw [if_neg isZombie] at run
  have taken : Handling t deliverable (s.updateMeta t fun m =>
      { m with pendingSignals := m.pendingSignals &&& ~~~sig }) :=
    handling.updateMeta fun _ => rfl
  by_cases isCont : sig = sigCont
  · rw [if_pos isCont] at run
    subst isCont
    have awake : s.state t ≠ .sleeping := fun asleep => absent (handling.stays asleep)
    rw [if_neg (show ¬ (s.updateMeta t _).state t = .sleeping from awake)] at run
    exact some.inj run ▸ taken
  rw [if_neg isCont] at run
  by_cases isChild : sig = sigChld ∨ sig = sigWinch
  · rw [if_pos isChild] at run
    split at run
    · exact some.inj run ▸ taken.updateMeta fun _ => rfl
    · exact some.inj run ▸ taken
  rw [if_neg isChild] at run
  split at run
  · rw [bind_eq_bind] at run
    obtain ⟨s₁, told, done⟩ := bind_eq_some_iff.mp run
    exact some.inj done ▸ taken.terminate told
  · exact some.inj run ▸ taken

theorem Handling.foldlM (table : List (BitVec 32 × Nat × Bool)) {s s' : Kernel}
    (handling : Handling t deliverable s) (run : table.foldlM (fun s e => Sched.handleSignalBit
      fuel t deliverable e.1 e.2.1 e.2.2 s) s = some s') : Handling t deliverable s' := by
  induction table generalizing s s' with
  | nil =>
    simp only [List.foldlM_nil, pure_def, some.injEq] at run
    exact run ▸ handling
  | cons e table ih =>
    simp only [List.foldlM_cons, bind_eq_bind] at run
    obtain ⟨s₁, first, rest⟩ := bind_eq_some_iff.mp run
    exact ih (handling.handleSignalBit first) rest

theorem endSigsuspend_outside (m : ProcMeta) : (endSigsuspend m).inSigsuspend = false := by
  unfold endSigsuspend
  cases known : m.inSigsuspend with
  | true => rfl
  | false => simpa using known

theorem Settled.taskHandleSignals (settled : Settled (some t) s) (alive : s.live t = true)
    (stays : s.state t = .sleeping → continues (s.metaOf t) = false)
    (run : taskHandleSignals fuel s t = some s') : Settled (some t) s' := by
  unfold Sched.taskHandleSignals at run
  split at run
  · exact some.inj run ▸ settled
  split at run
  · exact some.inj run ▸ settled
  dsimp only at run
  generalize ended : s.updateMeta t endSigsuspend = s₁ at run
  have metaEq : s₁.metaOf t = endSigsuspend (s.metaOf t) := by
    rw [← ended, metaOf_updateMeta_self]
  have handling : ∀ d, (s.state t = .sleeping → d &&& sigCont = 0) → Handling t d s₁ := by
    intro d masked
    subst ended
    exact ⟨settled.frame rfl, metaEq ▸ endSigsuspend_outside _, masked⟩
  have alive₁ : s₁.live t = true := by
    rw [← ended]
    exact alive
  by_cases kill : (s₁.metaOf t).pendingSignals &&& sigKill ≠ 0
  · rw [if_pos kill, bind_eq_bind] at run
    obtain ⟨s₂, told, done⟩ := bind_eq_some_iff.mp run
    have cleared := (handling 0 fun _ => by decide).updateMeta
      (f := fun m => { m with pendingSignals := 0 }) fun _ => rfl
    exact some.inj done ▸ (cleared.terminate told).settled
  rw [if_neg kill] at run
  by_cases stop : (s₁.metaOf t).pendingSignals &&& sigStop ≠ 0
  · rw [if_pos stop] at run
    have cleared := (handling 0 fun _ => by decide).updateMeta
      (f := fun m => { m with pendingSignals := m.pendingSignals &&& ~~~sigStop }) fun _ => rfl
    exact some.inj run ▸ cleared.settled.setState_current (by decide) (Or.inl alive₁)
  rw [if_neg stop] at run
  split at run
  · exact some.inj run ▸ (handling 0 fun _ => by decide).settled
  refine (Handling.foldlM signalTable (handling _ ?_) run).settled
  intro asleep
  have quiet := stays asleep
  simp only [continues, ← metaEq, not_not.mp kill, not_not.mp stop, decide_true, Bool.true_and,
    decide_eq_false_iff_not, not_not] at quiet
  exact quiet

/-! ## Alarms -/

/-- The walk of `check_alarm_timers`, begun in `s₀`: who may be woken has not changed. -/
structure Ticking (cur : Option Tid) (now : Nat) (s₀ s : Kernel) : Prop where
  settled : Settled cur s
  proc : s.proc = s₀.proc
  current : ∀ c, cur = some c → s.state c = s₀.state c
  mask : ∀ p, (s.procMeta p).inSigsuspend = (s₀.procMeta p).inSigsuspend ∧
    (s.procMeta p).signalMask = (s₀.procMeta p).signalMask
  due : ∀ p, timerDue now (s.procMeta p) = true → timerDue now (s₀.procMeta p) = true

section Ticking

variable {now : Nat} {s₀ : Kernel}

section

variable (ticking : Ticking cur now s₀ s)

include ticking

theorem Ticking.updateMeta (suspend : (f (s.metaOf t)).inSigsuspend = (s.metaOf t).inSigsuspend)
    (mask : (f (s.metaOf t)).signalMask = (s.metaOf t).signalMask)
    (due : timerDue now (f (s.metaOf t)) = true → timerDue now (s.metaOf t) = true) :
    Ticking cur now s₀ (s.updateMeta t f) := by
  refine ⟨ticking.settled.frame rfl, ticking.proc, ticking.current, ?_, ?_⟩
  · refine (forall_update_iff s.procMeta (p := fun p m =>
      m.inSigsuspend = (s₀.procMeta p).inSigsuspend ∧
        m.signalMask = (s₀.procMeta p).signalMask)).mpr
        ⟨?_, fun p _ => ticking.mask p⟩
    rw [suspend, mask]
    exact ticking.mask (s.proc t)
  · exact (forall_update_iff s.procMeta (p := fun p m => timerDue now m = true →
      timerDue now (s₀.procMeta p) = true)).mpr
        ⟨fun isDue => ticking.due _ (due isDue), fun p _ => ticking.due p⟩

theorem Ticking.suspendedFor_eq (isCur : cur = some t)
    (signal : BitVec 32) : suspendedFor s t signal = suspendedFor s₀ t signal := by
  obtain ⟨suspend, mask⟩ := ticking.mask (s₀.proc t)
  unfold suspendedFor Kernel.metaOf
  rw [ticking.proc, ticking.current t isCur, suspend, mask]

theorem Ticking.wake (other : cur = some t → suspendedFor s₀ t sigAlrm = false)
    (run : wakeIfSigsuspend fuel s t sigAlrm = some s') : Ticking cur now s₀ s' := by
  unfold wakeIfSigsuspend at run
  split at run
  · rename_i suspended
    have different : cur ≠ some t := by
      intro isCur
      rw [ticking.suspendedFor_eq isCur, other isCur] at suspended
      exact absurd suspended (by decide)
    have isSleeping : s.state t = .sleeping := by
      simp only [suspendedFor, Bool.and_eq_true, decide_eq_true_eq] at suspended
      exact suspended.1.2
    obtain ⟨settled, woke⟩ := ticking.settled.wakeSleeper isSleeping different run
    refine ⟨settled, woke.proc.trans ticking.proc, fun c isCur => ?_, ?_, ?_⟩
    · rw [woke.state c fun same => different (same ▸ isCur)]
      exact ticking.current c isCur
    · rw [woke.procMeta]
      exact ticking.mask
    · rw [woke.procMeta]
      exact ticking.due
  · exact some.inj run ▸ ticking

theorem Ticking.was_due (isDue : timerDue now (s.metaOf t) = true) :
    timerDue now (s₀.metaOf t) = true := by
  rw [Kernel.metaOf, ← ticking.proc]
  exact ticking.due (s.proc t) isDue

theorem Ticking.checkAlarm (other : ∀ c, cur = some c → timerDue now (s₀.metaOf c) = true →
      suspendedFor s₀ c sigAlrm = false)
    (run : checkAlarm fuel now t s = some s') : Ticking cur now s₀ s' := by
  unfold Sched.checkAlarm at run
  dsimp only at run
  split at run
  · rename_i isDue
    have due₀ := ticking.was_due (t := t) (by simp [timerDue, isDue])
    refine (ticking.updateMeta rfl rfl ?_).wake (fun isCur => other t isCur due₀) run
    simp only [timerDue, ne_eq, not_true_eq_false, decide_false, Bool.false_and, Bool.false_or]
    intro later
    rw [later, Bool.or_true]
  · exact some.inj run ▸ ticking

theorem Ticking.checkItimer (other : ∀ c, cur = some c → timerDue now (s₀.metaOf c) = true →
      suspendedFor s₀ c sigAlrm = false)
    (run : checkItimer fuel now t s = some s') : Ticking cur now s₀ s' := by
  unfold Sched.checkItimer at run
  dsimp only at run
  split at run
  · rename_i isDue
    rw [bind_eq_bind] at run
    obtain ⟨value, set, run⟩ := bind_eq_some_iff.mp run
    have due₀ := ticking.was_due (t := t) (by simp [timerDue, isDue])
    -- the new value lies in the future or is off
    have future : ¬ (value ≠ 0 ∧ value ≤ now) := by
      unfold nextItimer at set
      split at set
      · unfold checkedAdd at set
        split at set
        · cases set
          omega
        · cases set
      · cases set
        omega
    refine (ticking.updateMeta rfl rfl ?_).wake (fun isCur => other t isCur due₀) run
    intro later
    simp only [timerDue, Bool.or_eq_true, Bool.and_eq_true, decide_eq_true_eq] at later ⊢
    exact Or.inl (later.resolve_right future)
  · exact some.inj run ▸ ticking

end

theorem Settled.checkAlarmTimers (settled : Settled cur s)
    (other : ∀ c, cur = some c → timerDue s.currentTick (s.metaOf c) = true →
      suspendedFor s c sigAlrm = false)
    (run : checkAlarmTimers fuel s = some s') : Settled cur s' := by
  have start : Ticking cur s.currentTick s s :=
    ⟨settled, rfl, fun _ _ => rfl, fun _ => ⟨rfl, rfl⟩, fun _ isDue => isDue⟩
  refine (walk_invariant (fun _ s₁ => Ticking cur s.currentTick s s₁) ?_ fuel start
    run).settled
  intro c s₁ h s₂ ticking body
  unfold checkAlarmBody at body
  split at body
  · cases body
    exact ticking
  simp only [bind_eq_bind] at body
  obtain ⟨s₃, alarm, body⟩ := bind_eq_some_iff.mp body
  obtain ⟨s₄, itimer, body⟩ := bind_eq_some_iff.mp body
  cases body
  exact (ticking.checkAlarm other alarm).checkItimer other itimer

end Ticking

/-! ## The timer wheel -/

/-- The link of the wheel's slots. -/
def waitLink (s : Kernel) (t : Tid) : Option Tid := (s.metaOf t).waitNext

def OnWheel (s : Kernel) (t : Tid) : Prop := ∃ i, Linked (waitLink s) (s.slots i).head t

theorem OnWheel.next {u : Tid} (onWheel : OnWheel s t) (link : (s.metaOf t).waitNext = some u) :
    OnWheel s u := by
  obtain ⟨i, linked⟩ := onWheel
  exact ⟨i, linked.follow link⟩

/-- The walk of `timer_wheel_tick`, begun in `s₀`: it meets only tasks that were on the wheel,
and nobody has gone to sleep meanwhile. -/
structure Turning (cur : Option Tid) (now : Nat) (s₀ : Kernel) (h : Option Tid) (s : Kernel) :
    Prop where
  settled : Settled cur s
  proc : s.proc = s₀.proc
  asleep : ∀ u, s.state u = .sleeping → s₀.state u = .sleeping
  due : ∀ p, (s.procMeta p).sleepUntil ≤ now → (s₀.procMeta p).sleepUntil ≤ now
  linked : ∀ u, InSleepQueue s u → InSleepQueue s₀ u
  heads : ∀ i u, (s.slots i).head = some u → OnWheel s₀ u
  links : ∀ u v, OnWheel s₀ u → (s.metaOf u).waitNext = some v → OnWheel s₀ v
  ahead : ∀ u, h = some u → OnWheel s₀ u

section Turning

variable {now : Nat} {s₀ : Kernel} {h : Option Tid}

theorem Turning.updateMeta (turning : Turning cur now s₀ h s)
    (due : (f (s.metaOf t)).sleepUntil ≤ now → (s.metaOf t).sleepUntil ≤ now)
    (link : ∀ v, (f (s.metaOf t)).waitNext = some v → OnWheel s₀ v) :
    Turning cur now s₀ h (s.updateMeta t f) := by
  refine ⟨turning.settled.frame rfl, turning.proc, turning.asleep, ?_, turning.linked,
    turning.heads, fun u v onWheel => ?_, turning.ahead⟩
  · exact (forall_update_iff s.procMeta (p := fun p m => m.sleepUntil ≤ now →
      (s₀.procMeta p).sleepUntil ≤ now)).mpr
        ⟨fun isDue => turning.due _ (due isDue), fun p _ => turning.due p⟩
  · by_cases same : s.proc u = s.proc t
    · simp only [Kernel.metaOf, Kernel.updateMeta, same, update_self]
      exact link v
    · simp only [Kernel.metaOf, Kernel.updateMeta, update_of_ne same]
      exact turning.links u v onWheel

theorem Turning.slotPush {i : Nat} (turning : Turning cur now s₀ h s) (onWheel : OnWheel s₀ t) :
    Turning cur now s₀ h (slotPush s i t) := by
  unfold Sched.slotPush
  have inner : Turning cur now s₀ h
      (if s.proc t = 0 then s
        else s.updateMeta t fun m => { m with waitNext := (s.slots i).head }) := by
    split
    · exact turning
    · exact turning.updateMeta (fun isDue => isDue) (fun v link => turning.heads i v link)
  refine ⟨inner.settled.frame rfl, inner.proc, inner.asleep, inner.due, inner.linked, ?_,
    inner.links, inner.ahead⟩
  refine (forall_update_iff _
    (p := fun _ (slot : TimerSlot) => ∀ u, slot.head = some u → OnWheel s₀ u)).mpr
    ⟨?_, fun j _ => inner.heads j⟩
  intro u head
  exact some.inj head ▸ onWheel

theorem Turning.body {s' : Kernel} {h' : Option Tid} (turning : Turning cur now s₀ (some t) s)
    (free : ∀ u, OnWheel s₀ u → s₀.state u = .sleeping → (s₀.metaOf u).sleepUntil ≤ now →
      cur ≠ some u ∧ ¬ InSleepQueue s₀ u)
    (run : timerWheelBody now t s = some (h', s')) : Turning cur now s₀ h' s' := by
  have onWheel := turning.ahead t rfl
  unfold timerWheelBody at run
  dsimp only at run
  generalize cleared : (s.updateMeta t fun m => { m with waitNext := none }) = s₁ at run
  have next : ∀ u, (s.metaOf t).waitNext = some u → OnWheel s₀ u :=
    fun u link => turning.links t u onWheel link
  have turning₁ : Turning cur now s₀ (s.metaOf t).waitNext s₁ := by
    have moved : Turning cur now s₀ (s.metaOf t).waitNext s := { turning with ahead := next }
    rw [← cleared]
    exact moved.updateMeta (fun isDue => isDue) (by simp)
  split at run
  · rename_i isDue
    by_cases isSleeping : s₁.state t = .sleeping
    · rw [if_pos isSleeping] at run
      cases run
      have due₀ : (s₀.metaOf t).sleepUntil ≤ now := by
        rw [Kernel.metaOf, ← turning₁.proc]
        exact turning₁.due _ isDue
      obtain ⟨other, apart₀⟩ := free t onWheel (turning₁.asleep t isSleeping) due₀
      have turning₂ := turning₁.updateMeta (t := t) (f := fun m => { m with sleepUntil := 0 })
        (fun _ => isDue) (fun v link => turning₁.links t v onWheel link)
      have apart := fun inQueue => apart₀ (turning₂.linked t inQueue)
      have notReady : s₁.state t ≠ .ready := by rw [isSleeping]; decide
      have alive : s₁.live t = true :=
        turning₁.settled.live_of_state (by rw [isSleeping]; decide)
      refine ⟨turning₂.settled.makeReady notReady apart other alive, turning₂.proc, ?_,
        turning₂.due, ?_, turning₂.heads, turning₂.links, turning₂.ahead⟩
      · exact (forall_update_iff s₁.state (p := fun u v => v = .sleeping →
          s₀.state u = .sleeping)).mpr
            ⟨fun _ => turning₁.asleep t isSleeping, fun u _ => turning₂.asleep u⟩
      · intro u
        rw [turning₂.settled.makeReady_inSleepQueue notReady apart alive]
        exact turning₂.linked u
    · rw [if_neg isSleeping] at run
      cases run
      exact turning₁
  · cases run
    exact turning₁.slotPush onWheel

theorem Settled.timerWheelTick (settled : Settled cur s)
    (free : ∀ u, OnWheel s u → s.state u = .sleeping →
      (s.metaOf u).sleepUntil ≤ wrappingAdd s.currentTick 1 → cur ≠ some u ∧ ¬ InSleepQueue s u)
    (run : timerWheelTick fuel s = some s') : Settled cur s' := by
  unfold Sched.timerWheelTick at run
  refine (walk_invariant
    (fun h s₁ => Turning cur (wrappingAdd s.currentTick 1) s h s₁) ?_ fuel ?_ run).settled
  · intro t s₁ h s₂ turning body
    exact turning.body free body
  · refine ⟨settled.frame rfl, rfl, fun _ asleep => asleep, fun _ isDue => isDue,
      fun _ inQueue => inQueue, ?_, fun u v onWheel link => onWheel.next link, ?_⟩
    · exact (forall_update_iff s.slots (p := fun _ slot => ∀ u, slot.head = some u →
        OnWheel s u)).mpr ⟨nofun, fun i _ u head => ⟨i, head ▸ .here u⟩⟩
    · intro u head
      exact ⟨wrappingAdd s.currentTick 1 % wheelSize, head ▸ .here u⟩

end Turning

theorem Settled.schedSleepTicks {ticks : Nat} (settled : Settled cur s)
    (alive : ∀ t, cur = some t → s.live t = true) : Settled cur (schedSleepTicks s ticks) := by
  unfold Sched.schedSleepTicks
  cases known : s.currentTask with
  | none => exact settled
  | some c =>
    obtain rfl : some c = cur := known.symm.trans settled.current
    dsimp only
    split
    · exact settled
    have asleep : Settled (some c) (s.setState c .sleeping) :=
      settled.setState_current (by decide) (Or.inl (alive c rfl))
    refine asleep.frame ?_
    unfold slotPush
    dsimp only
    split <;> rfl

end Signals

end CactKernel.Sched
