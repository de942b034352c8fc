import CactKernel.Sched.Agreement

/-! # What each section of the scheduler preserves

One lemma per function: run from a settled state it ends in a settled state,
under the condition that the wake-ups it makes are of tasks that neither run
nor are linked anywhere. -/

set_option autoImplicit false

namespace CactKernel.Sched

open Lib Sync List Option Function

section Settled

variable {cur : Option Tid} {s s' : Kernel} {t : Tid} {fuel : Nat}

theorem Settled.frame (settled : Settled cur s) (same : s'.view = s.view) : Settled cur s' := by
  obtain ⟨ready, asleep, agrees, free⟩ := settled.queued
  have state : s'.state = s.state := congrArg View.state same
  have current : s'.currentTask = s.currentTask := congrArg View.currentTask same
  refine ⟨current.trans settled.current, ready, asleep, agrees.frame same, ?_⟩
  rw [state]
  exact free

theorem Settled.not_inSleepQueue (settled : Settled cur s) (awake : s.state t ≠ .sleeping) :
    ¬ InSleepQueue s t := by
  obtain ⟨ready, asleep, agrees, free⟩ := settled.queued
  rw [agrees.inSleepQueue_iff]
  exact agrees.not_mem_asleep awake

theorem Settled.current_free (settled : Settled (some t) s) :
    s.state t ≠ .ready ∧ ¬ InSleepQueue s t := by
  obtain ⟨ready, asleep, agrees, free⟩ := settled.queued
  rw [agrees.inSleepQueue_iff]
  exact free t rfl

theorem Settled.live_of_state (settled : Settled cur s) (alive : s.state t ≠ .zombie) :
    s.live t = true := by
  obtain ⟨ready, asleep, agrees, free⟩ := settled.queued
  exact agrees.live_of_state alive

theorem Settled.zombie_of_dead (settled : Settled cur s) (isDead : s.live t = false) :
    s.state t = .zombie := by
  obtain ⟨ready, asleep, agrees, free⟩ := settled.queued
  exact agrees.dead t isDead

variable {v : TaskState} {ready : Nat → List Tid}

theorem Settled.setState (settled : Settled cur s) (notReady : s.state t ≠ .ready)
    (apart : ¬ InSleepQueue s t) (quiet : v ≠ .ready) (alive : s.live t = true ∨ v = .zombie) :
    Settled cur (s.setState t v) := by
  obtain ⟨ready, asleep, agrees, free⟩ := settled.queued
  rw [agrees.inSleepQueue_iff] at apart
  refine ⟨settled.current, ready, asleep, agrees.setState v notReady apart quiet alive, ?_⟩
  exact (forall_update_iff s.state fun u w => cur = some u → w ≠ .ready ∧ u ∉ asleep).mpr
    ⟨fun isCur => ⟨quiet, (free t isCur).2⟩, fun u _ => free u⟩

theorem Settled.setState_current (settled : Settled (some t) s) (quiet : v ≠ .ready)
    (alive : s.live t = true ∨ v = .zombie) : Settled (some t) (s.setState t v) :=
  settled.setState settled.current_free.1 settled.current_free.2 quiet alive

theorem Settled.makeReady (settled : Settled cur s) (notReady : s.state t ≠ .ready)
    (apart : ¬ InSleepQueue s t) (other : cur ≠ some t) (alive : s.live t = true) :
    Settled cur (makeReady s t) := by
  obtain ⟨ready, asleep, agrees, free⟩ := settled.queued
  rw [agrees.inSleepQueue_iff] at apart
  obtain ⟨ready', agrees'⟩ := agrees.makeReady notReady apart alive
  refine ⟨settled.current, ready', asleep, agrees', ?_⟩
  exact (forall_update_iff s.state fun u w => cur = some u → w ≠ .ready ∧ u ∉ asleep).mpr
    ⟨fun isCur => absurd isCur other, fun u _ => free u⟩

theorem Settled.wakeWaiting (settled : Settled cur s) (isWaiting : s.state t = .waiting)
    (other : cur ≠ some t) : Settled cur (Sched.makeReady s t) := by
  refine settled.makeReady ?_ (settled.not_inSleepQueue ?_) other (settled.live_of_state ?_) <;>
    rw [isWaiting] <;> decide

theorem Settled.makeReady_inSleepQueue (settled : Settled cur s) (notReady : s.state t ≠ .ready)
    (apart : ¬ InSleepQueue s t) (alive : s.live t = true) (u : Tid) :
    InSleepQueue (Sched.makeReady s t) u ↔ InSleepQueue s u := by
  obtain ⟨ready, asleep, agrees, free⟩ := settled.queued
  rw [agrees.inSleepQueue_iff] at apart
  obtain ⟨ready', agrees'⟩ := agrees.makeReady notReady apart alive
  rw [agrees.inSleepQueue_iff, agrees'.inSleepQueue_iff]

theorem Settled.setPriority_current (settled : Settled (some t) s) (p : Nat) :
    Settled (some t) (s.setPriority t p) := by
  obtain ⟨ready, asleep, agrees, free⟩ := settled.queued
  exact ⟨settled.current, ready, asleep, agrees.setPriority p (free t rfl).1, free⟩

/-! ## Waking one task -/

theorem Settled.removeFromSleep (settled : Settled cur s)
    (run : mlfqRemoveFromSleep fuel s t = some s') :
    Settled cur s' ∧ ¬ InSleepQueue s' t ∧
      s' = { s with queueNext := s'.queueNext, sleepQueue := s'.sleepQueue } := by
  obtain ⟨ready, asleep, agrees, free⟩ := settled.queued
  obtain ⟨agrees', only⟩ := agrees.removeFromSleep run
  have state : s'.state = s.state := by rw [only]
  have current : s'.currentTask = s.currentTask := by rw [only]
  refine ⟨⟨current.trans settled.current, ready, _, agrees', ?_⟩, ?_, only⟩
  · intro u isCur
    rw [state]
    exact ⟨(free u isCur).1, fun member => (free u isCur).2 (mem_of_mem_erase member)⟩
  · rw [agrees'.inSleepQueue_iff]
    exact agrees.sleepHolds.nodup.not_mem_erase

/-- What a wake-up changes beside the queues: the state of the task it wakes. -/
structure Woke (s s' : Kernel) (t : Tid) : Prop where
  proc : s'.proc = s.proc
  procMeta : s'.procMeta = s.procMeta
  state : ∀ u, u ≠ t → s'.state u = s.state u

theorem Settled.wakeSleeper (settled : Settled cur s) (isSleeping : s.state t = .sleeping)
    (other : cur ≠ some t) (run : wakeSleeper fuel s t = some s') :
    Settled cur s' ∧ Woke s s' t := by
  unfold Sched.wakeSleeper at run
  simp only [bind_eq_bind] at run
  obtain ⟨s₁, removed, done⟩ := bind_eq_some_iff.mp run
  cases done
  obtain ⟨settled₁, apart, only⟩ := settled.removeFromSleep removed
  have state : s₁.state = s.state := by rw [only]
  have notReady : s₁.state t ≠ .ready := by rw [state, isSleeping]; decide
  have alive : s₁.live t = true := settled₁.live_of_state (by rw [state, isSleeping]; decide)
  have proc : s₁.proc = s.proc := by rw [only]
  have procMeta : s₁.procMeta = s.procMeta := by rw [only]
  refine ⟨settled₁.makeReady notReady apart other alive, proc, procMeta, fun u different => ?_⟩
  rw [← state]
  exact update_of_ne different ..

theorem Settled.mlfqWakeTask (settled : Settled cur s)
    (other : cur = some t → s.state t ≠ .sleeping ∧ s.state t ≠ .waiting)
    (run : mlfqWakeTask fuel s t = some s') : Settled cur s' := by
  unfold Sched.mlfqWakeTask at run
  cases known : s.state t with
  | sleeping =>
    simp only [known] at run
    exact (settled.wakeSleeper known (fun same => (other same).1 known) run).1
  | waiting =>
    simp only [known, some.injEq] at run
    exact run ▸ settled.wakeWaiting known fun same => (other same).2 known
  | ready | running | zombie => simp only [known, some.injEq] at run; exact run ▸ settled

theorem Settled.wakeWaiter (settled : Settled cur s)
    (free : s.state t = .sleeping → cur ≠ some t ∧ ¬ InSleepQueue s t) :
    Settled cur (wakeWaiter s t) := by
  unfold Sched.wakeWaiter
  by_cases isSleeping : s.state t = .sleeping
  · rw [if_pos isSleeping]
    obtain ⟨other, apart⟩ := free isSleeping
    refine settled.makeReady ?_ apart other (settled.live_of_state ?_) <;>
      rw [isSleeping] <;> decide
  · rw [if_neg isSleeping]
    exact settled

/-! ## The walk over the sleep queue -/

/-- The walk of `wake_expired_sleepers` between two tasks: `front` has been passed and kept,
`back` is ahead. -/
structure Walking (cur : Option Tid) (ready : Nat → List Tid) (front back : List Tid)
    (h : Option Tid) (w : Option Tid × Kernel) : Prop where
  agrees : Agrees w.2 [] ready (front ++ back)
  prev : w.1 = front.getLast?
  head : h = back.head?
  current : w.2.currentTask = cur
  free : ∀ t, cur = some t → w.2.state t ≠ .ready ∧ t ∉ front ++ back

theorem Walking.body {front back : List Tid} {c : Tid} {h : Option Tid} {w : Option Tid × Kernel}
    (walking : Walking cur ready front (c :: back) h w) (now : Nat) :
    ∃ h' w' ready' front', wakeExpiredBody now c w = some (h', w') ∧
      Walking cur ready' front' back h' w' := by
  obtain ⟨prev, s⟩ := w
  have agrees : Agrees s [] ready (front ++ c :: back) := walking.agrees
  have prevEq : prev = front.getLast? := walking.prev
  have after : s.queueNext c = back.head? := agrees.sleepHolds.chain.next_eq
  have isSleeping : s.state c = .sleeping := agrees.of_mem_asleep c (by simp)
  by_cases expired : (s.metaOf c).sleepUntil ≠ 0 ∧ (s.metaOf c).sleepUntil ≤ now
  · obtain ⟨links, sq, unlinked, holds, frame⟩ := agrees.sleepHolds.unlink
    have relinked := agrees.relink holds (by simp +contextual [or_imp])
      (fun u outside => frame u fun member => outside (by simp [member]))
    have gone := agrees.sleepHolds.chain.not_mem
    have notCurrent : cur ≠ some c := fun same => (walking.free c same).2 (by simp)
    have cleared : Agrees (Kernel.updateMeta { s with queueNext := links, sleepQueue := sq } c
        fun m => { m with sleepUntil := 0 }) [] ready (front ++ back) := relinked.frame rfl
    have alive : s.live c = true := agrees.live_of_state (by rw [isSleeping]; decide)
    have notReady : s.state c ≠ .ready := by rw [isSleeping]; decide
    obtain ⟨ready', awake⟩ := cleared.makeReady notReady gone alive
    refine ⟨s.queueNext c, (prev, _), ready', front, ?_, awake, prevEq, after,
      walking.current, ?_⟩
    · rw [← prevEq] at unlinked
      simp only [wakeExpiredBody, if_pos expired, unlinked]
      rfl
    · intro t isCur
      have different : t ≠ c := fun same => notCurrent (same ▸ isCur)
      obtain ⟨unready, apart⟩ := walking.free t isCur
      refine ⟨?_, fun member => apart ?_⟩
      · change update s.state c .ready t ≠ .ready
        rwa [update_of_ne different]
      · simp only [mem_append, mem_cons] at member ⊢
        exact member.imp_right Or.inr
  · refine ⟨s.queueNext c, (some c, s), ready, front ++ [c], ?_, ?_, by simp, after,
      walking.current, ?_⟩
    · simp only [wakeExpiredBody, if_neg expired]
    · simpa using agrees
    · simpa using walking.free

theorem Settled.walking (settled : Settled cur s) :
    ∃ ready asleep, Walking cur ready [] asleep s.sleepQueue.head (none, s) := by
  obtain ⟨ready, asleep, agrees, free⟩ := settled.queued
  exact ⟨ready, asleep, agrees, rfl, agrees.sleepHolds.chain.head_eq, settled.current, free⟩

theorem Settled.wakeExpiredSleepers (settled : Settled cur s)
    (run : wakeExpiredSleepers fuel s = some s') : Settled cur s' := by
  unfold Sched.wakeExpiredSleepers at run
  obtain ⟨w, walked, rfl⟩ := map_eq_some_iff.mp run
  obtain ⟨ready, asleep, start⟩ := settled.walking
  have finished := walk_invariant
    (fun h w => ∃ ready front back, Walking cur ready front back h w)
    (fun c w h w' walking body => by
      obtain ⟨ready, front, back, walking⟩ := walking
      cases back with
      | nil => exact absurd walking.head (by simp)
      | cons d back =>
        cases some.inj walking.head
        obtain ⟨h', w'', ready', front', done, walking'⟩ := walking.body s.currentTick
        cases some.inj (done.symm.trans body)
        exact ⟨ready', front', back, walking'⟩)
    fuel ⟨ready, [], asleep, start⟩ walked
  obtain ⟨ready, front, back, walking⟩ := finished
  exact ⟨walking.current, ready, _, walking.agrees, walking.free⟩

theorem Settled.wakeExpiredSleepers_returns (settled : Settled cur s) :
    ∃ fuel s', Sched.wakeExpiredSleepers fuel s = some s' := by
  obtain ⟨ready, asleep, start⟩ := settled.walking
  obtain ⟨w, walked⟩ := walk_total (wakeExpiredBody s.currentTick)
    (fun n h w => ∃ ready front back, Walking cur ready front back h w ∧ back.length = n)
    (fun c w walking => by
      obtain ⟨ready, front, back, walking, empty⟩ := walking
      rw [length_eq_zero_iff.mp empty] at walking
      exact absurd walking.head (by simp))
    (fun n c w walking => by
      obtain ⟨ready, front, back, walking, length⟩ := walking
      cases back with
      | nil => simp at length
      | cons d back =>
        cases some.inj walking.head
        obtain ⟨h', w', ready', front', done, walking'⟩ := walking.body s.currentTick
        exact ⟨h', w', done, ready', front', back, walking', by simpa using length⟩)
    asleep.length ⟨ready, [], asleep, start, rfl⟩
  exact ⟨asleep.length + 1, w.2, by simp [Sched.wakeExpiredSleepers, walked]⟩

/-! ## Boosting -/

theorem boostLevel_spec {level : Nat} {fuel : Nat} {s s' : Kernel} {asleep : List Tid}
    (agrees : Agrees s [] ready asleep) (run : boostLevel level fuel s = some s') :
    (∃ ready', Agrees s' [] ready' asleep) ∧ s'.state = s.state ∧
      s'.currentTask = s.currentTask := by
  induction fuel generalizing s s' ready asleep with
  | zero => simp [boostLevel] at run
  | succ fuel ih =>
    cases front : ready level with
    | nil =>
      simp only [boostLevel, agrees.popLevel_nil front, bind_eq_bind, bind_some,
        some.injEq] at run
      subst run
      exact ⟨⟨ready, agrees⟩, rfl, rfl⟩
    | cons t rest =>
      obtain ⟨s₁, popped, between, only⟩ := agrees.popLevel_cons front
      simp only [boostLevel, popped, bind_eq_bind, bind_some] at run
      have cleared : Agrees (s₁.setTicksUsed t 0) [t] _ asleep := between.frame rfl
      obtain ⟨result, state, current⟩ :=
        ih (cleared.enqueue not_mem_nil boostTarget) run
      have same : s₁.state = s.state ∧ s₁.currentTask = s.currentTask := by
        rw [only]
        exact ⟨rfl, rfl⟩
      exact ⟨result, state.trans same.1, current.trans same.2⟩

theorem Settled.boostLevel {level : Nat} (settled : Settled cur s)
    (run : boostLevel level fuel s = some s') : Settled cur s' := by
  obtain ⟨ready, asleep, agrees, free⟩ := settled.queued
  obtain ⟨⟨ready', agrees'⟩, state, current⟩ := boostLevel_spec agrees run
  refine ⟨current.trans settled.current, ready', asleep, agrees', ?_⟩
  rw [state]
  exact free

theorem Settled.boostCurrent (settled : Settled cur s) : Settled cur (boostCurrent s) := by
  unfold Sched.boostCurrent
  cases known : s.currentTask with
  | none => exact settled
  | some c =>
    obtain rfl : some c = cur := known.symm.trans settled.current
    dsimp only
    split
    · exact (settled.setPriority_current boostTarget).frame rfl
    · exact settled

theorem Settled.doPriorityBoost (settled : Settled cur s)
    (run : doPriorityBoost fuel s = some s') : Settled cur s' := by
  unfold Sched.doPriorityBoost at run
  simp only [bind_eq_bind] at run
  obtain ⟨s₁, second, run⟩ := bind_eq_some_iff.mp run
  obtain ⟨s₂, third, run⟩ := bind_eq_some_iff.mp run
  cases run
  exact ((settled.boostLevel second).boostLevel third).boostCurrent

theorem Settled.tickCurrent {c : Tid} (settled : Settled (some c) s) :
    Settled (some c) (tickCurrent s c) := by
  unfold Sched.tickCurrent
  split
  · split
    · exact (settled.setPriority_current _).frame rfl
    · exact settled.frame rfl
  · exact settled.frame rfl

theorem Settled.tickAccounting (settled : Settled cur s)
    (run : tickAccounting fuel s = some s') : Settled cur s' := by
  unfold Sched.tickAccounting at run
  cases known : s.currentTask with
  | none =>
    simp only [known, some.injEq] at run
    exact run ▸ settled
  | some c =>
    obtain rfl : some c = cur := known.symm.trans settled.current
    simp only [known] at run
    split at run
    · have ticked : Settled (some c) { Sched.tickCurrent s c with boostCounter := 0 } :=
        settled.tickCurrent.frame rfl
      exact ticked.doPriorityBoost run
    · cases run
      exact settled.tickCurrent.frame rfl

end Settled

end CactKernel.Sched
