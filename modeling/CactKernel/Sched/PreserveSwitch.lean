import CactKernel.Sched.PreserveSignal

/-! # Task lifecycle and switching keep the invariant

Creating, ending, waiting for and freeing tasks, and `schedule` itself.
`schedule` needs no condition: from a settled state the task it picks is never
the one that runs. -/

set_option autoImplicit false

namespace CactKernel.Sched

open Lib Sync List Option Function

section Switching

variable {cur : Option Tid} {s s' : Kernel} {t : Tid} {fuel : Nat}

/-! ## Freeing and creating tasks -/

theorem taskListRemoveFrom_view {fuel : Nat} {prev c : Option Tid}
    (run : taskListRemoveFrom s t fuel prev c = some s') : s'.view = s.view := by
  induction fuel generalizing prev c with
  | zero => simp [taskListRemoveFrom] at run
  | succ fuel ih =>
    cases c with
    | none =>
      simp only [taskListRemoveFrom, some.injEq] at run
      exact run ▸ rfl
    | some c =>
      by_cases found : c = t
      · simp only [taskListRemoveFrom, if_pos found, some.injEq] at run
        subst run
        cases prev <;> dsimp only <;> split <;> rfl
      · simp only [taskListRemoveFrom, if_neg found] at run
        exact ih run

theorem Settled.free (settled : Settled cur s) (isZombie : s.state t = .zombie) :
    Settled cur (reapTaskFree s t) := by
  unfold reapTaskFree
  split
  · exact settled
  obtain ⟨ready, asleep, agrees, free⟩ := settled.queued
  refine ⟨settled.current, ready, asleep, { agrees with dead := ?_ }, free⟩
  exact (forall_update_iff s.live fun u live => live = false → s.state u = .zombie).mpr
    ⟨fun _ => isZombie, fun u _ => agrees.dead u⟩

theorem Settled.freeAll {l : List Tid} {s : Kernel} (settled : Settled cur s)
    (zombies : ∀ t ∈ l, s.state t = .zombie) : Settled cur (l.foldl reapTaskFree s) := by
  induction l generalizing s with
  | nil => exact settled
  | cons t l ih =>
    refine ih (settled.free (zombies t (mem_cons_self ..))) fun u member => ?_
    have same : (reapTaskFree s t).state = s.state := by
      unfold reapTaskFree
      split <;> rfl
    rw [same]
    exact zombies u (mem_cons_of_mem _ member)

theorem Settled.taskReap (settled : Settled cur s) (run : taskReap fuel s = some s') :
    Settled cur s' := by
  unfold Sched.taskReap at run
  simp only [bind_eq_bind] at run
  obtain ⟨w, walked, done⟩ := bind_eq_some_iff.mp run
  cases done
  have collected := walk_invariant
    (fun _ w => Settled cur w.2 ∧ ∀ t ∈ w.1, w.2.state t = .zombie) ?_ fuel
    ⟨settled, by simp⟩ walked
  · exact collected.1.freeAll collected.2
  · intro c w h w' kept body
    obtain ⟨toReap, s₁⟩ := w
    unfold reapBody at body
    dsimp only at body
    split at body
    · split at body
      · rename_i isZombie
        rw [bind_eq_bind] at body
        obtain ⟨gone, found, body⟩ := bind_eq_some_iff.mp body
        cases gone with
        | true =>
          simp only [if_true] at body
          obtain ⟨s₂, removed, body⟩ := bind_eq_some_iff.mp body
          cases body
          have view := taskListRemoveFrom_view removed
          have state : s₂.state = s₁.state := congrArg View.state view
          refine ⟨kept.1.frame view, fun u member => ?_⟩
          rw [state]
          rcases mem_append.mp member with older | single
          · exact kept.2 u older
          · rw [mem_singleton.mp single]
            exact isZombie
        | false =>
          cases body
          exact kept
      · cases body
        exact kept
    · cases body
      exact kept

theorem taskListAdd_view (s : Kernel) (t : Tid) : (taskListAdd s t).view = s.view := by
  unfold taskListAdd
  dsimp only
  split <;> rfl

theorem Settled.addTask {p priority ticks : Nat} {isKernel : Bool} {m : ProcMeta}
    (settled : Settled cur s) (isFree : s.live t = false) (other : cur ≠ some t) :
    Settled cur (addTask s t p isKernel priority ticks m) := by
  have isZombie := settled.zombie_of_dead isFree
  have notReady : s.state t ≠ .ready := by rw [isZombie]; decide
  have notAsleep : s.state t ≠ .sleeping := by rw [isZombie]; decide
  unfold Sched.addTask
  generalize filled : Kernel.mk .. = s₁
  have live : s₁.live = update s.live t true := by rw [← filled]
  have state : s₁.state = s.state := by rw [← filled]
  have settled₁ : Settled cur s₁ := by
    obtain ⟨ready, asleep, agrees, free⟩ := settled.queued
    have repriorised := agrees.setPriority (t := t) priority notReady
    subst filled
    refine ⟨settled.current, ready, asleep, ?_, free⟩
    refine ⟨fun i => (agrees.readyHolds i).update (agrees.not_mem_ready notReady i),
      agrees.sleepHolds.update (agrees.not_mem_asleep notAsleep), repriorised.of_mem_ready,
      repriorised.mem_ready, agrees.of_mem_asleep, agrees.outFree, ?_⟩
    exact (forall_update_iff s.live fun u live => live = false → s.state u = .zombie).mpr
      ⟨nofun, fun u _ => agrees.dead u⟩
  have view := taskListAdd_view s₁ t
  have settled₂ : Settled cur (taskListAdd s₁ t) := settled₁.frame view
  have state₂ : (taskListAdd s₁ t).state = s.state := (congrArg View.state view).trans state
  have live₂ : (taskListAdd s₁ t).live t = true := by
    rw [show (taskListAdd s₁ t).live = s₁.live from congrArg View.live view, live]
    exact update_self ..
  refine settled₂.makeReady ?_ (settled₂.not_inSleepQueue ?_) other live₂ <;> rw [state₂] <;>
    assumption

/-! ## Exit and waiting -/

theorem Settled.schedTaskExit {code : Int} (settled : Settled cur s)
    (run : schedTaskExit fuel s code = some s') : Settled cur s' := by
  unfold Sched.schedTaskExit at run
  cases known : s.currentTask with
  | none =>
    simp only [known, some.injEq] at run
    exact run ▸ settled
  | some c =>
    obtain rfl : some c = cur := known.symm.trans settled.current
    simp only [known] at run
    have coded : Settled (some c) (s.updateMeta c fun m => { m with exitCode := code }) :=
      settled.frame rfl
    refine walk_invariant (fun _ s₁ => Settled (some c) s₁) ?_ fuel
      (coded.setState_current (by decide) (Or.inr rfl)) run
    intro child s₁ h s₂ kept body
    unfold orphanBody at body
    split at body
    · cases body
      exact kept.frame rfl
    · cases body
      exact kept

theorem findChild_zombie {parent : Nat} {target : Int} {fuel : Nat} {h : Option Tid}
    {seen seen' : Bool} (found : findChild s parent target fuel h seen = some (some t, seen')) :
    s.state t = .zombie := by
  induction fuel generalizing h seen seen' with
  | zero => simp [findChild] at found
  | succ fuel ih =>
    cases h with
    | none => simp [findChild] at found
    | some c =>
      unfold findChild at found
      split at found
      · split at found
        · rename_i isZombie
          cases some.inj (Prod.mk.inj (some.inj found)).1
          exact isZombie
        · exact ih found
      · exact ih found

theorem Settled.schedWaitpid {target : Int} (settled : Settled cur s)
    (alive : ∀ t, cur = some t → s.live t = true)
    (run : schedWaitpid fuel s target = some s') : Settled cur s' := by
  unfold Sched.schedWaitpid at run
  cases known : s.currentTask with
  | none =>
    simp only [known, some.injEq] at run
    exact run ▸ settled
  | some c =>
    obtain rfl : some c = cur := known.symm.trans settled.current
    simp only [known, bind_eq_bind] at run
    obtain ⟨⟨found, seen⟩, search, run⟩ := bind_eq_some_iff.mp run
    cases found with
    | some child =>
      obtain ⟨s₁, removed, done⟩ := bind_eq_some_iff.mp run
      cases done
      have view := taskListRemoveFrom_view removed
      have state : s₁.state = s.state := congrArg View.state view
      refine (settled.frame view).free ?_
      rw [state]
      exact findChild_zombie search
    | none =>
      cases seen with
      | true =>
        cases run
        exact settled.setState_current (by decide) (Or.inl (alive c rfl))
      | false => exact some.inj run ▸ settled

/-! ## Switching -/

theorem Settled.notifyParent {prev : Tid} (settled : Settled (some prev) s)
    (run : notifyParent fuel s prev = some s') : Settled (some prev) s' := by
  unfold Sched.notifyParent at run
  split at run
  swap
  · exact some.inj run ▸ settled
  rename_i isZombie
  dsimp only at run
  split at run
  swap
  · exact some.inj run ▸ settled
  rw [bind_eq_bind] at run
  obtain ⟨s₁, told, run⟩ := bind_eq_some_iff.mp run
  have quiet : ∀ c, some prev = some c → s.pid c = (s.metaOf prev).parentPid →
      signalWakes s c sigChld = false := by
    intro c isCur _
    cases isCur
    have soft : ¬ sigChld &&& (sigKill ||| sigStop) ≠ 0 := by decide
    rw [signalWakes, if_neg soft, suspendedFor, isZombie]
    simp
  obtain ⟨settled₁, signalled⟩ := settled.taskSignalLocked quiet told
  obtain ⟨found, search, run⟩ := bind_eq_some_iff.mp run
  cases found with
  | none => exact some.inj run ▸ settled₁
  | some parent =>
    cases run
    split
    · rename_i isWaiting
      have different : some prev ≠ some parent := by
        intro same
        cases same
        rw [signalled.current prev rfl, isZombie] at isWaiting
        exact absurd isWaiting (by decide)
      exact settled₁.wakeWaiting isWaiting different
    · exact settled₁

variable {ready : Nat → List Tid} {asleep : List Tid}

theorem pickFrom_spec :
    ∀ (levels : List Nat) {picked : Option Tid}, Agrees s [] ready asleep →
      pickFrom levels s = some (picked, s') →
      (picked = none ∧ s' = s) ∨
        ∃ t ready', picked = some t ∧ Agrees s' [t] ready' asleep ∧
          s' = { s with queueNext := s'.queueNext, queues := s'.queues } := by
  intro levels
  induction levels with
  | nil =>
    intro picked agrees run
    cases run
    exact Or.inl ⟨rfl, rfl⟩
  | cons level levels ih =>
    intro picked agrees run
    cases front : ready level with
    | nil =>
      simp only [pickFrom, agrees.popLevel_nil front, bind_eq_bind,
        bind_some] at run
      exact ih agrees run
    | cons t rest =>
      obtain ⟨s₁, popped, between, only⟩ := agrees.popLevel_cons front
      simp only [pickFrom, popped, bind_eq_bind, bind_some] at run
      cases run
      exact Or.inr ⟨t, _, rfl, between, only⟩

theorem Agrees.putPrev {out : List Tid} {prev : Tid} (agrees : Agrees s out ready asleep)
    (notReady : s.state prev ≠ .ready) (notAsleep : prev ∉ asleep) :
    ∃ ready' asleep', Agrees (putPrev s prev) out ready' asleep' := by
  unfold Sched.putPrev
  cases known : s.state prev with
  | running =>
    have alive : s.live prev = true := agrees.live_of_state (by rw [known]; decide)
    obtain ⟨ready', agrees'⟩ := agrees.makeReady notReady notAsleep alive
    exact ⟨ready', asleep, agrees'⟩
  | sleeping => exact ⟨ready, _, agrees.sleep known notAsleep⟩
  | waiting | zombie => exact ⟨ready, asleep, agrees⟩
  | ready => exact absurd known notReady

/-- Whoever runs afterwards, `schedule` leaves a settled state. -/
theorem Settled.scheduleLocked (settled : Settled cur s)
    (run : scheduleLocked fuel s = some s') : Settled s'.currentTask s' := by
  unfold Sched.scheduleLocked at run
  cases known : s.currentTask with
  | none =>
    simp only [known, some.injEq] at run
    rw [← run, settled.current]
    exact settled
  | some prev =>
    obtain rfl : some prev = cur := known.symm.trans settled.current
    simp only [known] at run
    split at run
    · rw [← some.inj run, settled.current]
      exact settled
    simp only [bind_eq_bind] at run
    obtain ⟨s₁, notified, awaken⟩ := bind_eq_some_iff.mp run
    obtain ⟨s₂, woken, choose⟩ := bind_eq_some_iff.mp awaken
    obtain ⟨⟨picked, s₃⟩, pick, finish⟩ := bind_eq_some_iff.mp choose
    have settled₂ := (settled.notifyParent notified).wakeExpiredSleepers woken
    obtain ⟨ready, asleep, agrees, free⟩ := settled₂.queued
    obtain ⟨notReady, notAsleep⟩ := free prev rfl
    rcases pickFrom_spec _ agrees pick with ⟨rfl, rfl⟩ | ⟨next, ready', rfl, between, only⟩
    · cases finish
      rw [settled₂.current]
      exact settled₂
    have state : s₃.state = s₂.state := by rw [only]
    have nextReady : s₃.state next = .ready := (between.outFree next (by simp)).1
    have different : next ≠ prev := by
      rintro rfl
      exact notReady (state ▸ nextReady)
    dsimp only at finish
    rw [if_neg different] at finish
    cases finish
    obtain ⟨ready'', asleep', put⟩ := between.putPrev
      (show s₃.state prev ≠ .ready by rw [state]; exact notReady) notAsleep
    have nextFree : next ∉ asleep' := by
      have stillReady := (put.outFree next (by simp)).1
      exact put.not_mem_asleep (by rw [stillReady]; decide)
    have running := put.dispatch (v := .running) not_mem_nil (by decide)
    refine ⟨rfl, ready'', asleep', ?_, ?_⟩
    · exact ⟨running.readyHolds, running.sleepHolds, running.of_mem_ready, running.mem_ready,
        running.of_mem_asleep, running.outFree, running.dead⟩
    · intro t isCur
      cases isCur
      refine ⟨?_, nextFree⟩
      have isRunning : ((putPrev s₃ prev).setState next .running).state next = .running :=
        update_self ..
      exact fun same => absurd (isRunning.symm.trans same) (by decide)

theorem Settled.schedule (settled : Settled cur s) (run : schedule fuel s = some s') :
    Settled s'.currentTask s' := by
  unfold Sched.schedule at run
  dsimp only at run
  have counted : Settled cur { s with reapCounter := (s.reapCounter + 1) % 2 ^ 32 } :=
    settled.frame rfl
  split at run
  · obtain ⟨s₁, reaped, run⟩ := bind_eq_some_iff.mp run
    exact (counted.taskReap reaped).scheduleLocked run
  · exact counted.scheduleLocked run

end Switching

end CactKernel.Sched
