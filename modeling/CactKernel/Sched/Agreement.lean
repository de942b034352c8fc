import CactKernel.Sched.Step

/-! # Task states and queues agree

`Agrees s out ready asleep` ties the states of the tasks to the lists that the
four ready queues and the sleep queue hold. `out` lists the ready tasks that
are between two queues at that point. `Settled` adds that the running task is
in no queue. This module says what each primitive move of the scheduler does
to the two. -/

set_option autoImplicit false

namespace CactKernel.Sched

open Lib Sync List Function

/-- The fields that decide which task is queued where. -/
structure View where
  live : Tid → Bool
  state : Tid → TaskState
  priority : Tid → Nat
  queueNext : Links
  queues : Nat → MlfqQueue
  sleepQueue : MlfqQueue
  currentTask : Option Tid

def Kernel.view (s : Kernel) : View :=
  ⟨s.live, s.state, s.priority, s.queueNext, s.queues, s.sleepQueue, s.currentTask⟩

structure Agrees (s : Kernel) (out : List Tid) (ready : Nat → List Tid) (asleep : List Tid) :
    Prop where
  readyHolds : ∀ i, Holds s.queueNext (s.queues i) (ready i)
  sleepHolds : Holds s.queueNext s.sleepQueue asleep
  of_mem_ready : ∀ i t, t ∈ ready i → s.state t = .ready ∧ s.priority t = i
  mem_ready : ∀ t, s.state t = .ready → t ∉ out →
    s.priority t < mlfqLevels ∧ t ∈ ready (s.priority t)
  of_mem_asleep : ∀ t ∈ asleep, s.state t = .sleeping
  outFree : ∀ t ∈ out, s.state t = .ready ∧ ∀ i, t ∉ ready i
  dead : ∀ t, s.live t = false → s.state t = .zombie

/-- The invariant of the scheduler while `cur` runs: states and queues agree, and the running
task is in no queue. -/
structure Settled (cur : Option Tid) (s : Kernel) : Prop where
  current : s.currentTask = cur
  queued : ∃ ready asleep, Agrees s [] ready asleep ∧
    ∀ t, cur = some t → s.state t ≠ .ready ∧ t ∉ asleep

def InSleepQueue (s : Kernel) (t : Tid) : Prop := Linked s.queueNext s.sleepQueue.head t

section Agrees

variable {s s' : Kernel} {out : List Tid} {ready : Nat → List Tid} {asleep : List Tid} {t : Tid}

section

variable (agrees : Agrees s out ready asleep)

include agrees

theorem Agrees.inSleepQueue_iff :
    InSleepQueue s t ↔ t ∈ asleep :=
  agrees.sleepHolds.chain.linked_iff

theorem Agrees.not_mem_ready (other : s.state t ≠ .ready)
    (i : Nat) : t ∉ ready i :=
  fun member => other (agrees.of_mem_ready i t member).1

theorem Agrees.not_mem_asleep (other : s.state t ≠ .sleeping) : t ∉ asleep :=
  fun member => other (agrees.of_mem_asleep t member)

theorem Agrees.apart (i : Nat) :
    ∀ u ∈ asleep, u ∉ ready i := by
  intro u member
  refine agrees.not_mem_ready ?_ i
  rw [agrees.of_mem_asleep u member]
  decide

theorem Agrees.levels_apart {i j : Nat} (different : i ≠ j) :
    ∀ u ∈ ready i, u ∉ ready j := by
  intro u inI inJ
  exact different ((agrees.of_mem_ready i u inI).2.symm.trans (agrees.of_mem_ready j u inJ).2)

theorem Agrees.live_of_state (alive : s.state t ≠ .zombie) :
    s.live t = true := by
  cases known : s.live t with
  | true => rfl
  | false => exact absurd (agrees.dead t known) alive

theorem Agrees.frame (same : s'.view = s.view) :
    Agrees s' out ready asleep := by
  obtain ⟨live, state, priority, links, queues, sleep, current⟩ := View.mk.inj same
  constructor
  · rw [links, queues]; exact agrees.readyHolds
  · rw [links, sleep]; exact agrees.sleepHolds
  · rw [state, priority]; exact agrees.of_mem_ready
  · rw [state, priority]; exact agrees.mem_ready
  · rw [state]; exact agrees.of_mem_asleep
  · rw [state]; exact agrees.outFree
  · rw [live, state]; exact agrees.dead

theorem Agrees.become {out' : List Tid} (v : TaskState)
    (unlinked : ∀ i, t ∉ ready i) (notAsleep : t ∉ asleep)
    (alive : s.live t = true ∨ v = .zombie)
    (between : ∀ u, u ∈ out' ↔ u ∈ out ∧ u ≠ t ∨ u = t ∧ v = .ready) :
    Agrees (s.setState t v) out' ready asleep := by
  have elsewhere : ∀ u, u ≠ t → (s.setState t v).state u = s.state u :=
    fun u different => update_of_ne different ..
  have here : (s.setState t v).state t = v := update_self ..
  refine ⟨agrees.readyHolds, agrees.sleepHolds, ?_, ?_, ?_, ?_, ?_⟩
  · intro i u member
    have different : u ≠ t := fun same => unlinked i (same ▸ member)
    rw [elsewhere u different]
    exact agrees.of_mem_ready i u member
  · intro u isReady notOut
    rw [between, not_or] at notOut
    have different : u ≠ t := by
      rintro rfl
      exact notOut.2 ⟨rfl, here.symm.trans isReady⟩
    rw [elsewhere u different] at isReady
    exact agrees.mem_ready u isReady fun isOut => notOut.1 ⟨isOut, different⟩
  · intro u member
    have different : u ≠ t := fun same => notAsleep (same ▸ member)
    rw [elsewhere u different]
    exact agrees.of_mem_asleep u member
  · intro u isOut
    rcases (between u).mp isOut with ⟨older, different⟩ | ⟨rfl, isReady⟩
    · rw [elsewhere u different]
      exact agrees.outFree u older
    · exact ⟨here.trans isReady, unlinked⟩
  · exact (forall_update_iff s.state fun u w => s.live u = false → w = .zombie).mpr
      ⟨fun isDead => alive.resolve_left (by simp [isDead]), fun u _ => agrees.dead u⟩

theorem Agrees.not_mem_out (notReady : s.state t ≠ .ready) :
    t ∉ out :=
  fun isOut => notReady (agrees.outFree t isOut).1

theorem Agrees.setState (v : TaskState)
    (notReady : s.state t ≠ .ready) (notAsleep : t ∉ asleep) (quiet : v ≠ .ready)
    (alive : s.live t = true ∨ v = .zombie) : Agrees (s.setState t v) out ready asleep := by
  refine agrees.become v (agrees.not_mem_ready notReady) notAsleep alive fun u => ?_
  have apart := agrees.not_mem_out notReady
  by_cases same : u = t <;> simp [same, apart, quiet]

theorem Agrees.setPriority (p : Nat)
    (notReady : s.state t ≠ .ready) : Agrees (s.setPriority t p) out ready asleep := by
  have elsewhere : ∀ u, s.state u = .ready → (s.setPriority t p).priority u = s.priority u := by
    intro u isReady
    have different : u ≠ t := by
      rintro rfl
      exact notReady isReady
    exact update_of_ne different ..
  refine ⟨agrees.readyHolds, agrees.sleepHolds, ?_, ?_, agrees.of_mem_asleep, agrees.outFree,
    agrees.dead⟩
  · intro i u member
    have known := agrees.of_mem_ready i u member
    rw [elsewhere u known.1]
    exact known
  · intro u isReady notOut
    rw [elsewhere u isReady]
    exact agrees.mem_ready u isReady notOut

theorem Agrees.setReady (notReady : s.state t ≠ .ready)
    (notAsleep : t ∉ asleep) (alive : s.live t = true) :
    Agrees (s.setState t .ready) (t :: out) ready asleep := by
  refine agrees.become .ready (agrees.not_mem_ready notReady) notAsleep (.inl alive) fun u => ?_
  by_cases same : u = t <;> simp [same]

end

theorem Agrees.enqueue (agrees : Agrees s (t :: out) ready asleep) (once : t ∉ out)
    (level : Nat) :
    Agrees (mlfqEnqueueLocked s t level) out
      (update ready (min level (mlfqLevels - 1))
        (ready (min level (mlfqLevels - 1)) ++ [t])) asleep := by
  obtain ⟨isReady, unlinked⟩ := agrees.outFree t (mem_cons_self ..)
  have awake : t ∉ asleep := agrees.not_mem_asleep (by rw [isReady]; decide)
  generalize bounded : min level (mlfqLevels - 1) = l
  have inRange : l < mlfqLevels := by
    rw [← bounded]
    exact lt_of_le_of_lt (Nat.min_le_right ..) (by decide)
  have elsewhere : ∀ u, u ≠ t → (mlfqEnqueueLocked s t level).priority u = s.priority u :=
    fun u different => update_of_ne different ..
  have here : (mlfqEnqueueLocked s t level).priority t = l := by
    rw [← bounded]
    exact update_self ..
  have queues : (mlfqEnqueueLocked s t level).queues =
      update s.queues l ((s.queues l).push s.queueNext t).2 := by
    rw [← bounded]
    rfl
  have links : (mlfqEnqueueLocked s t level).queueNext =
      ((s.queues l).push s.queueNext t).1 := by
    rw [← bounded]
    rfl
  have member_iff : ∀ i u, u ∈ update ready l (ready l ++ [t]) i ↔
      u ∈ ready i ∨ i = l ∧ u = t := by
    intro i u
    by_cases same : i = l
    · subst same
      simp
    · simp [same]
  have holds := agrees.readyHolds l
  refine ⟨?_, ?_, ?_, ?_, agrees.of_mem_asleep, ?_, agrees.dead⟩
  · intro i
    rw [links, queues]
    by_cases same : i = l
    · subst same
      rw [update_self, update_self]
      exact holds.push (unlinked i)
    · rw [update_of_ne same, update_of_ne same]
      exact holds.push_other (agrees.readyHolds i) (unlinked i) (agrees.levels_apart same)
  · rw [links]
    exact holds.push_other agrees.sleepHolds awake (agrees.apart l)
  · intro i u member
    rcases (member_iff i u).mp member with older | ⟨rfl, rfl⟩
    · rw [elsewhere u fun same => unlinked i (same ▸ older)]
      exact agrees.of_mem_ready i u older
    · exact ⟨isReady, here⟩
  · intro u uReady notOut
    rw [member_iff]
    by_cases pushed : u = t
    · subst pushed
      rw [here]
      exact ⟨inRange, .inr ⟨rfl, rfl⟩⟩
    rw [elsewhere u pushed]
    exact (agrees.mem_ready u uReady (by simp [pushed, notOut])).imp_right .inl
  · intro u isOut
    obtain ⟨uReady, uUnlinked⟩ := agrees.outFree u (mem_cons_of_mem _ isOut)
    refine ⟨uReady, fun i member => ?_⟩
    rcases (member_iff i u).mp member with older | ⟨_, rfl⟩
    · exact uUnlinked i older
    · exact once isOut

section

variable (agrees : Agrees s out ready asleep)

include agrees

theorem Agrees.makeReady (notReady : s.state t ≠ .ready)
    (notAsleep : t ∉ asleep) (alive : s.live t = true) :
    ∃ ready', Agrees (makeReady s t) out ready' asleep := by
  have between := agrees.setReady notReady notAsleep alive
  exact ⟨_, between.enqueue (agrees.not_mem_out notReady) (s.priority t)⟩

theorem Agrees.sleep (isSleeping : s.state t = .sleeping)
    (notAsleep : t ∉ asleep) : Agrees (mlfqSleepLocked s t) out ready (asleep ++ [t]) := by
  have notReady : s.state t ≠ .ready := by rw [isSleeping]; decide
  have holds := agrees.sleepHolds
  refine ⟨?_, holds.push notAsleep, agrees.of_mem_ready, agrees.mem_ready, ?_, agrees.outFree,
    agrees.dead⟩
  · intro i
    refine holds.push_other (agrees.readyHolds i) (agrees.not_mem_ready notReady i) ?_
    intro u inReady inAsleep
    exact agrees.apart i u inAsleep inReady
  · intro u member
    rcases mem_append.mp member with older | single
    · exact agrees.of_mem_asleep u older
    · rw [mem_singleton.mp single]
      exact isSleeping

theorem Agrees.relink {links : Links} {sq : MlfqQueue}
    {fewer : List Tid} (holds : Holds links sq fewer) (subset : ∀ u ∈ fewer, u ∈ asleep)
    (frame : ∀ u, u ∉ asleep → links u = s.queueNext u) :
    Agrees { s with queueNext := links, sleepQueue := sq } out ready fewer := by
  refine ⟨?_, holds, agrees.of_mem_ready, agrees.mem_ready, ?_, agrees.outFree, agrees.dead⟩
  · intro i
    refine (agrees.readyHolds i).congr fun u inReady => frame u fun inAsleep => ?_
    exact agrees.apart i u inAsleep inReady
  · intro u member
    exact agrees.of_mem_asleep u (subset u member)

theorem Agrees.removeFromSleep {fuel : Nat}
    (run : mlfqRemoveFromSleep fuel s t = some s') :
    Agrees s' out ready (asleep.erase t) ∧
      s' = { s with queueNext := s'.queueNext, sleepQueue := s'.sleepQueue } := by
  unfold mlfqRemoveFromSleep at run
  obtain ⟨r, removed, rfl⟩ := Option.map_eq_some_iff.mp run
  obtain ⟨holds, frame⟩ := agrees.sleepHolds.remove_some removed
  exact ⟨agrees.relink holds (fun u => mem_of_mem_erase) frame, rfl⟩

end

theorem Agrees.dispatch (agrees : Agrees s (t :: out) ready asleep) (once : t ∉ out)
    {v : TaskState} (quiet : v ≠ .ready) : Agrees (s.setState t v) out ready asleep := by
  obtain ⟨isReady, unlinked⟩ := agrees.outFree t (mem_cons_self ..)
  have awake : t ∉ asleep := agrees.not_mem_asleep (by rw [isReady]; decide)
  have alive : s.live t = true := agrees.live_of_state (by rw [isReady]; decide)
  refine agrees.become v unlinked awake (.inl alive) fun u => ?_
  by_cases same : u = t <;> simp [same, once, quiet]

theorem Agrees.popLevel_nil (agrees : Agrees s out ready asleep) {level : Nat}
    (empty : ready level = []) : popLevel s level = some (none, s) := by
  have holds := agrees.readyHolds level
  rw [empty] at holds
  simp [popLevel, holds.pop_nil]

theorem Agrees.popLevel_cons (agrees : Agrees s out ready asleep) {level : Nat}
    {rest : List Tid} (front : ready level = t :: rest) :
    ∃ s', popLevel s level = some (some t, s') ∧
      Agrees s' (t :: out) (update ready level rest) asleep ∧
      s' = { s with queueNext := s'.queueNext, queues := s'.queues } := by
  have holds := agrees.readyHolds level
  have inLevel : t ∈ ready level := by simp [front]
  obtain ⟨isReady, levelEq⟩ := agrees.of_mem_ready level t inLevel
  rw [front] at holds
  obtain ⟨q', popped, holds'⟩ := holds.pop_cons
  have fresh : t ∉ rest := (nodup_cons.mp holds.nodup).1
  have member_iff : ∀ i u, u ∈ update ready level rest i ↔ u ∈ ready i ∧ u ≠ t := by
    intro i u
    by_cases same : i = level
    · subst same
      rw [update_self, front, mem_cons]
      grind
    · have outside := agrees.levels_apart (Ne.symm same) t inLevel
      rw [update_of_ne same]
      grind
  refine ⟨_, by simp [popLevel, popped]; rfl, ?_, rfl⟩
  refine ⟨?_, ?_, fun i u member => agrees.of_mem_ready i u ((member_iff i u).mp member).1,
    ?_, agrees.of_mem_asleep, ?_, agrees.dead⟩
  · intro i
    by_cases same : i = level
    · subst same
      simpa using holds'
    simp only [update_of_ne same]
    have outside : t ∉ ready i := agrees.levels_apart (Ne.symm same) t inLevel
    exact (agrees.readyHolds i).update outside
  · refine agrees.sleepHolds.update ?_
    exact agrees.not_mem_asleep (by rw [isReady]; decide)
  · intro u uReady outside
    simp only [mem_cons, not_or] at outside
    obtain ⟨small, member⟩ := agrees.mem_ready u uReady outside.2
    exact ⟨small, (member_iff _ u).mpr ⟨member, outside.1⟩⟩
  · intro u isOut
    rcases mem_cons.mp isOut with rfl | older
    · exact ⟨isReady, fun i member => ((member_iff i u).mp member).2 rfl⟩
    · obtain ⟨uReady, unlinked⟩ := agrees.outFree u older
      exact ⟨uReady, fun i member => unlinked i ((member_iff i u).mp member).1⟩

end Agrees

end CactKernel.Sched
