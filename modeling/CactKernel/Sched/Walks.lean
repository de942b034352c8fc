import CactKernel.Sched.Agreement

/-! # Walks over the task list

`init_scheduler` links the idle task to itself and gives it no metadata. A walk over
the list is total when it comes to an end and follows the `proc` pointer of no task
that has none. `check_alarm_timers` is seen as its loop over the list; what it does to a
task leaves the links alone. -/

set_option autoImplicit false

namespace CactKernel.Sched

open Lib Option Function

inductive Walk
  | findTaskByPid (pid : Nat)
  | taskSignalLocked (pid : Nat)
  | schedWaitpid (target : Int)
  | schedTaskExit (code : Int)
  | taskReap
  | checkAlarmTimers

def Ends (s : Kernel) : Walk → Prop
  | .findTaskByPid pid => ∃ fuel found, findTaskByPid fuel s pid = some found
  | .taskSignalLocked pid => pid = 0 ∨ ∃ fuel found, findTaskByPid fuel s pid = some found
  | .schedWaitpid target => ∃ fuel s', schedWaitpid fuel s target = some s'
  | .schedTaskExit code => ∃ fuel s', schedTaskExit fuel s code = some s'
  | .taskReap => ∃ fuel s', taskReap fuel s = some s'
  | .checkAlarmTimers =>
    ∃ fuel s', walk (fun t s => some (s.next t, s)) fuel s.taskListHead s = some s'

/-- The walk follows the `proc` pointer of `t` when it comes to `t`. -/
def Follows (s : Kernel) (t : Tid) : Walk → Prop
  | .findTaskByPid _ => False
  | .taskSignalLocked pid => pid ≠ 0 ∧ s.pid t = pid
  | .schedWaitpid _ | .schedTaskExit _ => True
  | .taskReap => s.state t = .zombie
  | .checkAlarmTimers => s.proc t ≠ 0

def Total (s : Kernel) (w : Walk) : Prop :=
  Ends s w ∧ ∀ t, Linked s.next s.taskListHead t → Follows s t w → s.proc t ≠ 0

section Walks

variable {s : Kernel} {t : Tid} {h : Option Tid} {l : List Tid}

/-- A loop that follows the links and leaves them alone ends where the list does. -/
theorem chain_of_walk {body : Tid → Kernel → Option (Option Tid × Kernel)} {fuel : Nat}
    (along : ∀ a s r, body a s = some r → r.1 = s.next a ∧ r.2.next = s.next) {s s' : Kernel}
    (run : walk body fuel h s = some s') : ∃ l, Chain s.next h l := by
  induction fuel generalizing h s with
  | zero => simp [walk] at run
  | succ fuel ih =>
    cases h with
    | none => exact ⟨[], rfl⟩
    | some a =>
      obtain ⟨r, first, run⟩ := bind_eq_some_iff.mp run
      obtain ⟨next, links⟩ := along a s r first
      obtain ⟨l, rest⟩ := ih run
      exact ⟨a :: l, rfl, next ▸ links ▸ rest⟩

theorem walk_ends_iff {body : Tid → Kernel → Option (Option Tid × Kernel)}
    (along : ∀ a s, ∃ s', body a s = some (s.next a, s') ∧ s'.next = s.next) (s : Kernel) :
    (∃ fuel s', walk body fuel h s = some s') ↔ ∃ l, Chain s.next h l := by
  constructor
  · rintro ⟨fuel, s', run⟩
    refine chain_of_walk (fun a s r step => ?_) run
    obtain ⟨s₁, first, links⟩ := along a s
    cases first.symm.trans step
    exact ⟨rfl, links⟩
  · rintro ⟨l, chain⟩
    induction l generalizing h s with
    | nil => exact ⟨1, s, chain ▸ rfl⟩
    | cons a l ih =>
      obtain ⟨rfl, rest⟩ := chain
      obtain ⟨s₁, first, links⟩ := along a s
      rw [← links] at rest
      obtain ⟨fuel, s', run⟩ := ih s₁ rest
      exact ⟨fuel + 1, s', by simpa [walk, first, ← links] using run⟩

theorem findFrom_ends (pid : Nat) : ∀ {l : List Tid} {h : Option Tid}, Chain s.next h l →
    ∀ fuel > l.length, ∃ found, findFrom s pid fuel h = some found := by
  intro l
  induction l with
  | nil =>
    rintro h rfl (_ | fuel) enough
    · contradiction
    · exact ⟨none, rfl⟩
  | cons a l ih =>
    rintro h ⟨rfl, rest⟩ (_ | fuel) enough
    · contradiction
    · rw [findFrom]
      split
      · exact ⟨_, rfl⟩
      · exact ih rest fuel (by simpa using enough)

theorem findChild_ends (parent : Nat) (target : Int) : ∀ {l : List Tid} {h : Option Tid},
    Chain s.next h l → ∀ seen, ∃ found seen',
      findChild s parent target (l.length + 1) h seen = some (found, seen') ∧
        ∀ t ∈ found, t ∈ l := by
  intro l
  induction l with
  | nil =>
    rintro h rfl seen
    exact ⟨none, seen, rfl, nofun⟩
  | cons a l ih =>
    rintro h ⟨rfl, rest⟩ seen
    rw [List.length_cons, findChild]
    split
    · split
      · exact ⟨_, _, rfl, by simp⟩
      · obtain ⟨found, seen', run, member⟩ := ih rest true
        exact ⟨found, seen', run, fun t here => .tail _ (member t here)⟩
    · obtain ⟨found, seen', run, member⟩ := ih rest seen
      exact ⟨found, seen', run, fun t here => .tail _ (member t here)⟩

theorem taskListRemoveFrom_eq {q : MlfqQueue} {r : Links × MlfqQueue}
    (head : q.head = s.taskListHead) : ∀ {fuel : Nat} {prev cur : Option Tid},
    q.removeFrom s.next t fuel prev cur = some r →
      ∃ s', taskListRemoveFrom s t fuel prev cur = some s' ∧ s'.next = r.1 ∧
        s'.taskListHead = r.2.head := by
  intro fuel
  induction fuel with
  | zero => simp [MlfqQueue.removeFrom]
  | succ fuel ih =>
    intro prev cur run
    cases cur with
    | none =>
      cases run
      exact ⟨s, rfl, rfl, head.symm⟩
    | some c =>
      rw [MlfqQueue.removeFrom] at run
      rw [taskListRemoveFrom.eq_def]
      dsimp only
      split at run
      · rename_i found
        obtain ⟨u, unlinked, rfl⟩ := map_eq_some_iff.mp run
        rw [if_pos found]
        refine ⟨_, rfl, ?_⟩
        cases prev <;> simp only [MlfqQueue.unlink] at unlinked <;> split at unlinked <;>
          cases unlinked <;> dsimp only <;> split <;> simp_all [Kernel.setNext]
      · rename_i other
        rw [if_neg other]
        exact ih run

theorem taskListRemove_chain {front back : List Tid} {fuel : Nat}
    (chain : Chain s.next s.taskListHead (front ++ t :: back))
    (enough : (front ++ t :: back).length < fuel) :
    ∃ s', taskListRemove fuel s t = some s' ∧ Chain s'.next s'.taskListHead (front ++ back) := by
  have holds : Holds s.next ⟨s.taskListHead, (front ++ t :: back).getLast?, _⟩ _ :=
    ⟨chain, rfl, rfl⟩
  obtain ⟨next', q', removed, result, -⟩ := holds.remove (t := t) enough
  obtain ⟨s', run, links, head⟩ := taskListRemoveFrom_eq (s := s) rfl removed
  have outside : t ∉ front := fun member => chain.not_mem (List.mem_append_left _ member)
  rw [List.erase_append_right _ outside, List.erase_cons_head] at result
  exact ⟨s', run, by rw [links, head]; exact result.chain⟩

/-- The walk of `task_reap` at `h`: what is ahead of it is still linked. -/
def Reaping (most n : Nat) (h : Option Tid) (w : List Tid × Kernel) : Prop :=
  h = none ∨ ∃ front back, Chain w.2.next w.2.taskListHead (front ++ back) ∧ h = back.head? ∧
    back.length = n ∧ (front ++ back).length < most

theorem reapBody_ends {most n : Nat} {w : List Tid × Kernel}
    (reaping : Reaping most (n + 1) (some t) w) :
    ∃ h w', reapBody most t w = some (h, w') ∧ Reaping most n h w' := by
  obtain none | ⟨front, back, chain, head, length, few⟩ := reaping
  · contradiction
  obtain ⟨toReap, s⟩ := w
  obtain ⟨back, rfl⟩ := List.head?_eq_some_iff.mp head.symm
  have next : s.next t = back.head? := chain.next_eq
  have passed : Reaping most n (s.next t) (toReap, s) :=
    .inr ⟨front ++ [t], back, by simpa using chain, next, by simpa using length, by simpa using few⟩
  rw [reapBody]
  split
  · split
    · obtain ⟨found, search⟩ := findFrom_ends (s.metaOf t).parentPid chain most few
      obtain ⟨s', removed, shorter⟩ := taskListRemove_chain chain few
      have gone : Reaping most n (s.next t) (toReap ++ [t], s') :=
        .inr ⟨front, back, shorter, next, by simpa using length, by simp at few ⊢; omega⟩
      obtain ⟨b, known⟩ : ∃ b, orphaned most s t = some b := by
        rw [orphaned]
        split
        · exact ⟨_, rfl⟩
        · exact ⟨_, congrArg _ search⟩
      cases b <;> simp [known, removed, passed, gone]
    · exact ⟨_, _, rfl, passed⟩
  · exact ⟨none, _, rfl, .inl rfl⟩

theorem orphanBody_along (pid : Nat) (a : Tid) (s : Kernel) :
    ∃ s', orphanBody pid a s = some (s.next a, s') ∧ s'.next = s.next := by
  rw [orphanBody]
  split <;> exact ⟨_, rfl, rfl⟩

theorem wakeIfSigsuspend_next {fuel : Nat} {sig : BitVec 32} {s s' : Kernel}
    (run : wakeIfSigsuspend fuel s t sig = some s') : s'.next = s.next := by
  rw [wakeIfSigsuspend] at run
  split at run
  · obtain ⟨u, removed, last⟩ := bind_eq_some_iff.mp run
    obtain ⟨r, -, rfl⟩ := map_eq_some_iff.mp removed
    cases last
    rfl
  · rw [some.inj run]

/-- Where `check_alarm_timers` comes to an end, its loop over the links does. -/
theorem checkAlarmTimers_ends {fuel : Nat} {s' : Kernel} (run : checkAlarmTimers fuel s = some s') :
    Ends s .checkAlarmTimers := by
  refine (walk_ends_iff (fun _ s => ⟨s, rfl, rfl⟩) s).mpr (chain_of_walk ?_ run)
  intro a s r body
  rw [checkAlarmBody] at body
  split at body
  · cases body
    exact ⟨rfl, rfl⟩
  obtain ⟨u, alarm, body⟩ := bind_eq_some_iff.mp body
  obtain ⟨v, itimer, last⟩ := bind_eq_some_iff.mp body
  cases last
  have first : u.next = s.next := by
    rw [checkAlarm] at alarm
    split at alarm
    · exact (wakeIfSigsuspend_next alarm :)
    · rw [some.inj alarm]
  refine ⟨rfl, Eq.trans ?_ first⟩
  rw [checkItimer] at itimer
  split at itimer
  · obtain ⟨value, -, woken⟩ := bind_eq_some_iff.mp itimer
    exact (wakeIfSigsuspend_next woken :)
  · rw [some.inj itimer]

/-- Every walk is total exactly when the list ends and all its tasks have metadata. -/
theorem walks_total_iff (cur : Tid) (running : s.currentTask = some cur) :
    (∀ w, Total s w) ↔ ∃ l, Chain s.next s.taskListHead l ∧ ∀ t ∈ l, s.proc t ≠ 0 := by
  constructor
  · intro total
    obtain ⟨l, chain⟩ := (walk_ends_iff (fun _ s => ⟨s, rfl, rfl⟩) s).mp (total .checkAlarmTimers).1
    refine ⟨l, chain, fun t member => ?_⟩
    exact (total (.schedTaskExit 0)).2 t (chain.linked_iff.mpr member) trivial
  rintro ⟨l, chain, present⟩ w
  refine ⟨?_, fun t linked _ => present t (chain.linked_iff.mp linked)⟩
  have search := fun pid => findFrom_ends pid chain (l.length + 1) (Nat.lt_succ_self _)
  cases w with
  | findTaskByPid pid => exact ⟨_, search pid⟩
  | taskSignalLocked pid => exact .inr ⟨_, search pid⟩
  | schedWaitpid target =>
    refine ⟨l.length + 1, ?_⟩
    obtain ⟨found, seen, search, member⟩ := findChild_ends (s.pid cur) target chain false
    simp only [schedWaitpid, running, search]
    cases found with
    | some t =>
      obtain ⟨front, back, rfl⟩ := List.append_of_mem (member t rfl)
      obtain ⟨s', removed, -⟩ := taskListRemove_chain chain (Nat.lt_succ_self _)
      exact ⟨_, congrArg (Option.bind · _) removed⟩
    | none => cases seen <;> exact ⟨_, rfl⟩
  | schedTaskExit code =>
    simp only [Ends, schedTaskExit, running]
    exact (walk_ends_iff (orphanBody_along _) _).mpr ⟨l, chain⟩
  | taskReap =>
    obtain ⟨_, run⟩ := walk_total (reapBody (l.length + 1)) (Reaping (l.length + 1))
      (fun a w reaping => by simp_all [Reaping]) (fun n a w => reapBody_ends) l.length
      (h := s.taskListHead) (s := ([], s))
      (.inr ⟨[], l, chain, chain.head_eq, rfl, Nat.lt_succ_self _⟩)
    exact ⟨l.length + 1, _, congrArg (Option.bind · _) run⟩
  | checkAlarmTimers => exact (walk_ends_iff (fun _ s => ⟨s, rfl, rfl⟩) s).mpr ⟨l, chain⟩

/-- A state of a run, and a list of one task with metadata. -/
theorem walks_total_one : (∃ s, Reach Initial Step s ∧ s.currentTask = some 0 ∧ ¬ ∀ w, Total s w) ∧
    ∃ s, s.currentTask = some 0 ∧ ∀ w, Total s w := by
  refine ⟨⟨initScheduler 0, .start ⟨0, rfl⟩, rfl, fun total => ?_⟩,
    { initScheduler 0 with next := fun _ => none, proc := fun _ => 1 }, rfl,
    (walks_total_iff 0 rfl).mpr ⟨[0], ⟨rfl, rfl⟩, fun _ _ => one_ne_zero⟩⟩
  obtain ⟨l, chain, present⟩ := (walks_total_iff 0 rfl).mp total
  cases l with
  | nil => cases chain
  | cons a l => exact present a List.mem_cons_self rfl

end Walks

/-- Right after `init_scheduler` a walk goes round the idle task for ever, and one that reads
metadata follows its null pointer. -/
theorem walks_not_total : ∃ s, Reach Initial Step s ∧ ¬ Total s .checkAlarmTimers ∧
    ¬ Total s (.schedTaskExit 0) := by
  refine ⟨initScheduler 0, .start ⟨0, rfl⟩, fun total => ?_,
    fun total => total.2 0 (.here 0) trivial rfl⟩
  obtain ⟨l, chain⟩ := (walk_ends_iff (fun _ s => ⟨s, rfl, rfl⟩) _).mp total.1
  cases l with
  | nil => contradiction
  | cons a l =>
    cases chain.1
    have same := chain.unique (m := l) chain.2
    simpa using congrArg List.length same

end CactKernel.Sched
