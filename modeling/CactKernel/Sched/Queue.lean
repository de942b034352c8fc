import CactKernel.Lib.Chain
import CactKernel.Task

/-! # The intrusive queues of the MLFQ scheduler

`MlfqQueue` of `mlfq.rs` links task structs through their one field
`queue_next`. The field is the function `next : Tid → Option Tid`; a null
pointer is `none`. Overflow checks are on in the scheduler's build profile, so
`count -= 1` at zero stops the kernel: such an operation returns `none`.

`Holds next q l` connects a queue to the list of tasks it holds. `push`,
`pop` and `remove` are specified on it, together with what they leave alone. -/

set_option autoImplicit false

namespace CactKernel.Sched

open Lib List Function

structure MlfqQueue where
  head : Option Tid
  tail : Option Tid
  count : Nat
  deriving DecidableEq, Repr

def MlfqQueue.empty : MlfqQueue := ⟨none, none, 0⟩

abbrev Links := Tid → Option Tid

def MlfqQueue.push (next : Links) (q : MlfqQueue) (task : Tid) : Links × MlfqQueue :=
  let next := Function.update next task none
  match q.tail with
  | none => (next, ⟨some task, some task, q.count + 1⟩)
  | some last => (Function.update next last (some task), ⟨q.head, some task, q.count + 1⟩)

def MlfqQueue.pop (next : Links) (q : MlfqQueue) : Option (Option Tid × Links × MlfqQueue) :=
  match q.head with
  | none => some (none, next, q)
  | some t =>
    let head := next t
    let tail := if head = none then none else q.tail
    if q.count = 0 then none
    else some (some t, Function.update next t none, ⟨head, tail, q.count - 1⟩)

/-- Takes `cur` out of the queue, `prev` being the task before it. The link of `cur`
itself is left; both callers overwrite it. -/
def MlfqQueue.unlink (next : Links) (q : MlfqQueue) (prev : Option Tid) (cur : Tid) :
    Option (Links × MlfqQueue) :=
  let tail := if q.tail = some cur then prev else q.tail
  if q.count = 0 then none
  else match prev with
    | none => some (next, ⟨next cur, tail, q.count - 1⟩)
    | some p => some (Function.update next p (next cur), ⟨q.head, tail, q.count - 1⟩)

/-- The loop of `remove`, standing at `cur` with predecessor `prev`. -/
def MlfqQueue.removeFrom (next : Links) (q : MlfqQueue) (task : Tid) :
    Nat → Option Tid → Option Tid → Option (Links × MlfqQueue)
  | 0, _, _ => none
  | _ + 1, _, none => some (next, q)
  | fuel + 1, prev, some cur =>
    if cur = task then
      (q.unlink next prev task).map fun r => (Function.update r.1 task none, r.2)
    else removeFrom next q task fuel (some cur) (next cur)

def MlfqQueue.remove (fuel : Nat) (next : Links) (q : MlfqQueue) (task : Tid) :
    Option (Links × MlfqQueue) :=
  q.removeFrom next task fuel none q.head

/-! ## The list a queue holds -/

structure Holds (next : Links) (q : MlfqQueue) (l : List Tid) : Prop where
  chain : Chain next q.head l
  tail : q.tail = l.getLast?
  count : q.count = l.length

theorem holds_empty (next : Links) : Holds next MlfqQueue.empty [] :=
  ⟨rfl, rfl, rfl⟩

variable {l : List Tid} {q : MlfqQueue} {t : Tid}

variable {next : Links}

theorem Holds.nodup (holds : Holds next q l) : l.Nodup := holds.chain.nodup

theorem Holds.congr {next' : Links} (holds : Holds next q l) (same : ∀ t ∈ l, next' t = next t) :
    Holds next' q l :=
  ⟨holds.chain.congr same, holds.tail, holds.count⟩

theorem Holds.update {v : Option Tid} (holds : Holds next q l) (outside : t ∉ l) :
    Holds (Function.update next t v) q l :=
  ⟨holds.chain.update outside, holds.tail, holds.count⟩

theorem Holds.push (holds : Holds next q l) (fresh : t ∉ l) :
    Holds (q.push next t).1 (q.push next t).2 (l ++ [t]) := by
  have cleared : Chain (Function.update next t none) q.head l := holds.chain.update fresh
  rcases l.eq_nil_or_concat' with rfl | ⟨front, last, rfl⟩
  · have noTail : q.tail = none := holds.tail
    simp only [MlfqQueue.push, noTail]
    refine ⟨⟨rfl, ?_⟩, rfl, by simp [holds.count]⟩
    simp
  · have lastTail : q.tail = some last := by rw [holds.tail]; simp
    simp only [MlfqQueue.push, lastTail]
    have different : last ≠ t := fun same => fresh (by simp [same])
    have single : Chain (Function.update next t none) (some t) [t] := ⟨rfl, by simp⟩
    refine ⟨?_, by simp, by simp [holds.count]⟩
    simpa using cleared.splice (by simpa using different) single

theorem push_links (next : Links) (q : MlfqQueue) (t u : Tid)
    (notPushed : u ≠ t) (notTail : q.tail ≠ some u) : (q.push next t).1 u = next u := by
  unfold MlfqQueue.push
  cases tailEq : q.tail with
  | none => simp [notPushed]
  | some last =>
    have different : u ≠ last := fun same => notTail (by rw [tailEq, same])
    simp [different, notPushed]

theorem Holds.tail_mem (holds : Holds next q l) (isTail : q.tail = some t) :
    t ∈ l := by
  rw [holds.tail] at isTail
  exact mem_of_getLast? isTail

theorem Holds.push_other {r : MlfqQueue} {m : List Tid} (holds : Holds next q l)
    (other : Holds next r m) (outside : t ∉ m) (disjoint : ∀ u ∈ m, u ∉ l) :
    Holds (q.push next t).1 r m := by
  refine other.congr fun u member => push_links next q t u ?_ ?_
  · rintro rfl
    exact outside member
  · intro isTail
    exact disjoint u member (holds.tail_mem isTail)

theorem Holds.pop_nil (holds : Holds next q []) :
    q.pop next = some (none, next, q) := by
  have noHead : q.head = none := holds.chain
  simp [MlfqQueue.pop, noHead]

theorem Holds.pop_cons (holds : Holds next q (t :: l)) :
    ∃ q', q.pop next = some (some t, Function.update next t none, q') ∧
      Holds (Function.update next t none) q' l := by
  have headEq : q.head = some t := holds.chain.1
  have positive : q.count ≠ 0 := by rw [holds.count]; simp
  have rest : Chain next (next t) l := holds.chain.2
  have fresh : t ∉ l := (nodup_cons.mp holds.nodup).1
  refine ⟨⟨next t, if next t = none then none else q.tail, q.count - 1⟩,
    by simp only [MlfqQueue.pop, headEq, if_neg positive], rest.update fresh, ?_, ?_⟩
  · simp only [rest.head_eq, holds.tail]
    cases l with
    | nil | cons u l => simp
  · simp [holds.count]

theorem Holds.unlink {front back : List Tid} {c : Tid}
    (holds : Holds next q (front ++ c :: back)) :
    ∃ next' q', q.unlink next front.getLast? c = some (next', q') ∧
      Holds next' q' (front ++ back) ∧ (∀ u, u ∉ front → next' u = next u) := by
  have positive : q.count ≠ 0 := by rw [holds.count]; simp
  have fresh : c ∉ back := fun member => holds.chain.not_mem (mem_append_right _ member)
  -- the last task stays the last one unless it is `c` itself
  have newTail : (if q.tail = some c then front.getLast? else q.tail) =
      (front ++ back).getLast? := by
    rw [holds.tail]
    cases back with
    | nil => simp
    | cons d back =>
      have last : (front ++ c :: d :: back).getLast? = (d :: back).getLast? := by
        rw [List.getLast?_append_of_ne_nil _ (by simp), List.getLast?_cons_cons]
      have notLast : (d :: back).getLast? ≠ some c :=
        fun same => fresh (List.mem_of_getLast? same)
      rw [last, if_neg notLast, List.getLast?_append_of_ne_nil _ (by simp)]
  have newCount : q.count - 1 = (front ++ back).length := by rw [holds.count]; simp
  refine ⟨_, ⟨_, _, _⟩, ?_, ⟨holds.chain.skipped, newTail, newCount⟩, fun u outside => ?_⟩
  · cases front.getLast? <;> simp only [MlfqQueue.unlink, if_neg positive] <;> rfl
  · cases known : front.getLast? with
    | none => rfl
    | some p =>
      have different : u ≠ p := fun same => outside (same ▸ mem_of_getLast? known)
      exact Function.update_of_ne different ..

theorem removeFrom_spec (back front : List Tid) (fuel : Nat)
    (holds : Holds next q (front ++ back)) (passed : t ∉ front) (enough : back.length < fuel) :
    ∃ next' q', q.removeFrom next t fuel front.getLast? back.head? = some (next', q') ∧
      Holds next' q' ((front ++ back).erase t) ∧
      (∀ u, u ∉ front ++ back → next' u = next u) := by
  induction back generalizing front fuel with
  | nil =>
    obtain ⟨fuel, rfl⟩ : ∃ n, fuel = n + 1 := ⟨fuel - 1, by omega⟩
    refine ⟨next, q, rfl, ?_, fun _ _ => rfl⟩
    rw [append_nil] at holds ⊢
    rwa [erase_of_not_mem passed]
  | cons c back ih =>
    simp only [length_cons] at enough
    obtain ⟨fuel, rfl⟩ : ∃ n, fuel = n + 1 := ⟨fuel - 1, by omega⟩
    by_cases found : c = t
    · subst found
      obtain ⟨next', q', done, rest, frame⟩ := holds.unlink
      have erased : (front ++ c :: back).erase c = front ++ back := by
        rw [erase_append_right _ passed, erase_cons_head]
      have fresh := holds.chain.not_mem
      refine ⟨update next' c none, q', ?_, ?_, ?_⟩
      · simp [MlfqQueue.removeFrom, done]
      · rw [erased]
        exact rest.update fresh
      · intro u outside
        have different : u ≠ c := fun same => outside (by simp [same])
        rw [update_of_ne different]
        exact frame u fun member => outside (by simp [member])
    · have moved : Holds next q ((front ++ [c]) ++ back) := by simpa using holds
      have passed' : t ∉ front ++ [c] := by
        simp only [mem_append, mem_singleton, not_or]
        exact ⟨passed, fun same => found same.symm⟩
      obtain ⟨next', q', run, result, frame⟩ := ih (front ++ [c]) fuel moved passed' (by omega)
      have after : next c = back.head? := holds.chain.next_eq
      refine ⟨next', q', ?_, by simpa using result, by simpa using frame⟩
      simp only [head?_cons, MlfqQueue.removeFrom, if_neg found, after]
      simpa using run

variable {fuel : Nat} {r : Links × MlfqQueue}

theorem Holds.remove (holds : Holds next q l) (enough : l.length < fuel) :
    ∃ next' q', q.remove fuel next t = some (next', q') ∧ Holds next' q' (l.erase t) ∧
      (∀ u, u ∉ l → next' u = next u) := by
  have start := removeFrom_spec (t := t) l [] fuel holds (by simp) enough
  unfold MlfqQueue.remove
  rw [holds.chain.head_eq]
  exact start

theorem removeFrom_mono {prev cur : Option Tid} (run : q.removeFrom next t fuel prev cur = some r) :
    ∀ {more : Nat}, fuel ≤ more → q.removeFrom next t more prev cur = some r := by
  induction fuel generalizing prev cur with
  | zero => simp [MlfqQueue.removeFrom] at run
  | succ fuel ih =>
    intro more enough
    obtain ⟨more, rfl⟩ : ∃ n, more = n + 1 := ⟨more - 1, by omega⟩
    cases cur with
    | none => exact run
    | some c =>
      by_cases found : c = t
      · simpa only [MlfqQueue.removeFrom, if_pos found] using run
      · simp only [MlfqQueue.removeFrom, if_neg found] at run ⊢
        exact ih run (by omega)

/-- Whatever the fuel, a removal that returns has removed the task. -/
theorem Holds.remove_some (holds : Holds next q l) (run : q.remove fuel next t = some r) :
    Holds r.1 r.2 (l.erase t) ∧ (∀ u, u ∉ l → r.1 u = next u) := by
  have enough : l.length < max fuel (l.length + 1) := by omega
  obtain ⟨next', q', full, result, frame⟩ := holds.remove (t := t) enough
  have same : q.remove (max fuel (l.length + 1)) next t = some r :=
    removeFrom_mono run (Nat.le_max_left ..)
  cases Option.some.inj (full.symm.trans same)
  exact ⟨result, frame⟩

end CactKernel.Sched
