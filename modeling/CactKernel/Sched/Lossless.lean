import CactKernel.Sched.Deliver

/-! # Which steps lose a signal

Most sections of the scheduler only add pending bits and only wake tasks.
`deliver_pending_signal` takes a bit for which it has built a frame.
`task_handle_signals` takes the bit of every signal it looks at; of the caught ones it
puts back `SIGCHLD` and `SIGWINCH` only, and it ends the process for an ignored signal
as it does for one with the default action. -/

set_option autoImplicit false

namespace CactKernel.Sched

open BitVec (twoPow)
open Lib List Option Function Nat Or

/-! ## Sections that lose nothing -/

/-- Pending bits are only added, and no task ends or goes to sleep; the task `out` may lose its
bits and end. -/
structure Looked (out : Option Tid) (s s' : Kernel) : Prop where
  proc : s'.proc = s.proc
  pid : s'.pid = s.pid
  fixed : ∀ p, (s'.procMeta p).parentPid = (s.procMeta p).parentPid ∧
    (s'.procMeta p).signalHandlers = (s.procMeta p).signalHandlers
  grows : ∀ p, (∀ t ∈ out, p ≠ s.proc t) → ∀ bit, pends (s.procMeta p) bit = true →
    pends (s'.procMeta p) bit = true
  zombie : ∀ u, u ∉ out → s'.state u = .zombie → s.state u = .zombie
  asleep : ∀ u, s'.state u = .sleeping → s.state u = .sleeping

abbrev Gentle : Kernel → Kernel → Prop := Looked none

abbrev Fixes (f : ProcMeta → ProcMeta) : Prop :=
  ∀ p, (f p).parentPid = p.parentPid ∧ (f p).signalHandlers = p.signalHandlers

variable {f : ProcMeta → ProcMeta}

namespace Looked

variable {out : Option Tid} {s s' s'' : Kernel}

theorem trans (first : Looked out s s') (second : Looked out s' s'') : Looked out s s'' where
  proc := second.proc.trans first.proc
  pid := second.pid.trans first.pid
  fixed p := ⟨(second.fixed p).1.trans (first.fixed p).1,
    (second.fixed p).2.trans (first.fixed p).2⟩
  grows p other bit pending :=
    second.grows p (by rw [first.proc]; exact other) bit (first.grows p other bit pending)
  zombie u other ended := first.zombie u other (second.zombie u other ended)
  asleep u stopped := first.asleep u (second.asleep u stopped)

theorem of_gentle (gentle : Gentle s s') : Looked out s s' :=
  ⟨gentle.proc, gentle.pid, gentle.fixed, fun p _ => gentle.grows p nofun,
    fun u _ => gentle.zombie u nofun, gentle.asleep⟩

theorem updateMeta (s : Kernel) (t : Tid) (fixed : Fixes f)
    (grows : t ∉ out → ∀ p bit, pends p bit = true → pends (f p) bit = true) :
    Looked out s (s.updateMeta t f) where
  proc := rfl
  pid := rfl
  fixed := (forall_update_iff s.procMeta (p := fun p m =>
    m.parentPid = (s.procMeta p).parentPid ∧ m.signalHandlers = (s.procMeta p).signalHandlers)).mpr
      ⟨fixed _, fun _ _ => ⟨rfl, rfl⟩⟩
  grows := (forall_update_iff s.procMeta (p := fun p m => (∀ t ∈ out, p ≠ s.proc t) →
    ∀ bit, pends (s.procMeta p) bit = true → pends m bit = true)).mpr
      ⟨fun other => grows (fun member => other t member rfl) _, fun _ _ _ _ pending => pending⟩
  zombie _ _ ended := ended
  asleep _ stopped := stopped

theorem own (s : Kernel) (t : Tid) (fixed : Fixes f) :
    Looked (some t) s (s.updateMeta t f) := updateMeta s t fixed fun other => absurd rfl other

theorem setState {v : TaskState} (s : Kernel) (t : Tid) (alive : v = .zombie → t ∈ out)
    (awake : v ≠ .sleeping) : Looked out s (s.setState t v) where
  proc := rfl
  pid := rfl
  fixed _ := ⟨rfl, rfl⟩
  grows _ _ _ pending := pending
  zombie := (forall_update_iff s.state (p := fun u v => u ∉ out → v = .zombie →
    s.state u = .zombie)).mpr ⟨fun other ended => absurd (alive ended) other,
      fun _ _ _ same => same⟩
  asleep := (forall_update_iff s.state (p := fun u v => v = .sleeping →
    s.state u = .sleeping)).mpr ⟨fun stopped => absurd stopped awake, fun _ _ same => same⟩

end Looked

namespace Gentle

variable {s s' s'' : Kernel} {t : Tid} {fuel : Nat}

theorem after (second : Gentle s' s'') (first : Gentle s s') : Gentle s s'' := first.trans second

/-- Queues, priorities and the task list play no part. -/
theorem of_same (proc : s'.proc = s.proc) (pid : s'.pid = s.pid)
    (procMeta : s'.procMeta = s.procMeta) (state : s'.state = s.state) : Gentle s s' where
  proc := proc
  pid := pid
  fixed p := by rw [procMeta]; exact ⟨rfl, rfl⟩
  grows p _ bit pending := by rw [procMeta]; exact pending
  zombie t _ ended := by rw [state] at ended; exact ended
  asleep t stopped := by rw [state] at stopped; exact stopped

theorem refl (s : Kernel) : Gentle s s := of_same rfl rfl rfl rfl

theorem makeReady (s : Kernel) (t : Tid) : Gentle s (makeReady s t) :=
  (Looked.setState (v := .ready) s t nofun nofun).trans (of_same rfl rfl rfl rfl)

theorem wakeSleeper (run : wakeSleeper fuel s t = some s') : Gentle s s' := by
  obtain ⟨u, removed, last⟩ := bind_eq_some_iff.mp run
  obtain ⟨r, -, rfl⟩ := map_eq_some_iff.mp removed
  cases last
  exact (makeReady _ t).after (of_same rfl rfl rfl rfl)

theorem raise (s : Kernel) (t : Tid) (sig : BitVec 32)
    (fixed : Fixes f := by exact fun _ => ⟨rfl, rfl⟩)
    (pending : ∀ p, (f p).pendingSignals = p.pendingSignals ||| sig := by exact fun _ => rfl) :
    Gentle s (s.updateMeta t f) := by
  apply Looked.updateMeta s t fixed
  intro _ p bit there
  rw [pends, pending, BitVec.getLsbD_or, Bool.or_eq_true]
  exact inl there

theorem adjust (s : Kernel) (t : Tid) (fixed : Fixes f := by exact fun _ => ⟨rfl, rfl⟩)
    (pending : ∀ p, (f p).pendingSignals = p.pendingSignals := by exact fun _ => rfl) :
    Gentle s (s.updateMeta t f) := by
  apply Looked.updateMeta s t fixed
  intro _ p bit there
  rw [pends, pending]
  exact there

theorem walk {α : Type} {body : α → Kernel → Option (Option α × Kernel)}
    (kept : ∀ a s h s', body a s = some (h, s') → Gentle s s') {h : Option α}
    (run : Lib.walk body fuel h s = some s') : Gentle s s' :=
  Lib.walk_invariant (fun _ u => Gentle s u)
    (fun a u h u' before step => before.trans (kept a u h u' step)) fuel (refl s) run

end Gentle

variable {fuel : Nat} {s s' : Kernel} {t : Tid} {a : SigAction}

theorem taskSignalLocked_gentle {pid : Nat} {sig : BitVec 32}
    (run : taskSignalLocked fuel s pid sig = some s') :
    Gentle s s' ∧ ∀ p, (pid ≠ 0 → ∀ u, s.pid u = pid → s.proc u ≠ p) →
      s'.procMeta p = s.procMeta p := by
  rw [taskSignalLocked] at run
  split at run
  · cases run
    exact ⟨.refl s, fun _ _ => rfl⟩
  rename_i listed
  rw [not_or] at listed
  obtain ⟨found, search, run⟩ := bind_eq_some_iff.mp run
  cases found with
  | none =>
    cases run
    exact ⟨.refl s, fun _ _ => rfl⟩
  | some t =>
    have raised := Gentle.raise s t (f := fun m =>
      { m with pendingSignals := m.pendingSignals ||| sig }) sig
    have target := findFrom_pid search
    have elsewhere : ∀ p, (pid ≠ 0 → ∀ u, s.pid u = pid → s.proc u ≠ p) →
        (s.updateMeta t fun m => { m with pendingSignals := m.pendingSignals ||| sig }).procMeta p =
          s.procMeta p := by
      intro p apart
      exact update_of_ne (Ne.symm (apart listed.2 t target)) _ _
    have woken : ∀ {u : Kernel}, wakeSleeper fuel
        (s.updateMeta t fun m => { m with pendingSignals := m.pendingSignals ||| sig }) t = some u →
        Gentle s u ∧ ∀ p, (pid ≠ 0 → ∀ v, s.pid v = pid → s.proc v ≠ p) →
          u.procMeta p = s.procMeta p := by
      intro u woke
      refine ⟨raised.trans (Gentle.wakeSleeper woke), ?_⟩
      obtain ⟨v, removed, last⟩ := bind_eq_some_iff.mp woke
      obtain ⟨r, -, rfl⟩ := map_eq_some_iff.mp removed
      cases last
      exact elsewhere
    dsimp only at run
    split at run
    · split at run
      · exact woken run
      · cases run
        exact ⟨raised.trans (Gentle.makeReady _ t), elsewhere⟩
      · cases run
        exact ⟨raised, elsewhere⟩
    · split at run
      · exact woken run
      · cases run
        exact ⟨raised, elsewhere⟩

namespace Gentle

variable {s s' : Kernel} {t : Tid} {fuel : Nat}

theorem wakeIfSigsuspend {sig : BitVec 32} (run : wakeIfSigsuspend fuel s t sig = some s') :
    Gentle s s' := by
  rw [Sched.wakeIfSigsuspend] at run
  split at run
  · exact .wakeSleeper run
  · exact some.inj run ▸ refl s

variable {now level fuel : Nat} {r : Option Tid × Kernel} {s s' : Kernel}

theorem checkAlarm (run : checkAlarm fuel now t s = some s') : Gentle s s' := by
  rw [Sched.checkAlarm] at run
  split at run
  · exact (wakeIfSigsuspend run).after (raise s t sigAlrm)
  · exact some.inj run ▸ refl s

theorem checkItimer (run : checkItimer fuel now t s = some s') : Gentle s s' := by
  rw [Sched.checkItimer] at run
  split at run
  · obtain ⟨value, -, run⟩ := bind_eq_some_iff.mp run
    exact (wakeIfSigsuspend run).after (raise s t sigAlrm)
  · exact some.inj run ▸ refl s

theorem checkAlarmTimers (run : checkAlarmTimers fuel s = some s') : Gentle s s' := by
  apply walk _ run
  intro cur u h u' body
  rw [checkAlarmBody] at body
  split at body
  · cases body
    exact refl u
  obtain ⟨v, alarm, body⟩ := bind_eq_some_iff.mp body
  obtain ⟨x, itimer, last⟩ := bind_eq_some_iff.mp body
  cases last
  exact (checkAlarm alarm).trans (checkItimer itimer)

theorem slotPush (s : Kernel) (i : Nat) (t : Tid) : Gentle s (slotPush s i t) := by
  rw [Sched.slotPush]
  split
  · exact of_same rfl rfl rfl rfl
  have linked : Gentle s (s.updateMeta t fun m => { m with waitNext := (s.slots i).head }) :=
    adjust s t
  exact linked.trans (of_same rfl rfl rfl rfl)

theorem timerWheelTick (run : timerWheelTick fuel s = some s') : Gentle s s' := by
  have drained : Gentle s ({ s with currentTick := wrappingAdd s.currentTick 1 }.setSlot
      (wrappingAdd s.currentTick 1 % wheelSize) ⟨none, 0⟩) := of_same rfl rfl rfl rfl
  apply drained.trans
  apply walk _ run
  intro cur u h u' body
  have unlinked : Gentle u (u.updateMeta cur fun m => { m with waitNext := none }) :=
    adjust u cur
  rw [timerWheelBody] at body
  split at body
  · split at body
    · cases body
      apply unlinked.trans
      apply Looked.trans _ (makeReady _ cur)
      exact adjust _ cur
    · cases body
      exact unlinked
  · cases body
    exact unlinked.trans (slotPush _ _ cur)

theorem popLevel (run : popLevel s level = some r) : Gentle s r.2 := by
  obtain ⟨popped, -, rfl⟩ := map_eq_some_iff.mp run
  exact of_same rfl rfl rfl rfl

theorem boostLevel (run : boostLevel level fuel s = some s') : Gentle s s' := by
  induction fuel generalizing s s' with
  | zero => cases run
  | succ fuel ih =>
    obtain ⟨⟨t, u⟩, popped, run⟩ := bind_eq_some_iff.mp run
    have first := popLevel popped
    cases t with
    | none => exact some.inj run ▸ first
    | some t =>
      have rest := ih run
      apply first.trans
      exact rest.after (of_same rfl rfl rfl rfl)

theorem doPriorityBoost (run : doPriorityBoost fuel s = some s') : Gentle s s' := by
  obtain ⟨u, second, run⟩ := bind_eq_some_iff.mp run
  obtain ⟨v, third, run⟩ := bind_eq_some_iff.mp run
  cases run
  apply ((boostLevel second).trans (boostLevel third)).trans
  rw [boostCurrent]
  split
  · exact refl v
  split
  · exact of_same rfl rfl rfl rfl
  · exact refl v

theorem tickAccounting (run : tickAccounting fuel s = some s') : Gentle s s' := by
  rw [Sched.tickAccounting] at run
  split at run
  · exact some.inj run ▸ refl s
  rename_i cur _
  have ticked : Gentle s (tickCurrent s cur) := by
    rw [tickCurrent]
    split
    · split <;> exact of_same rfl rfl rfl rfl
    · exact of_same rfl rfl rfl rfl
  dsimp only at run
  split at run
  · apply ticked.trans
    exact (doPriorityBoost run).after (of_same rfl rfl rfl rfl)
  · cases run
    exact ticked.trans (of_same rfl rfl rfl rfl)

theorem taskListRemoveFrom {t : Tid} {prev cur : Option Tid}
    (run : taskListRemoveFrom s t fuel prev cur = some s') : Gentle s s' := by
  induction fuel generalizing prev cur s' with
  | zero => cases run
  | succ fuel ih =>
    cases cur with
    | none => exact some.inj run ▸ refl s
    | some cur =>
      simp only [Sched.taskListRemoveFrom] at run
      split at run
      · cases run
        cases prev <;> dsimp only <;> split <;> exact of_same rfl rfl rfl rfl
      · exact ih run

theorem taskReap (run : taskReap fuel s = some s') : Gentle s s' := by
  obtain ⟨⟨toReap, u⟩, walked, run⟩ := bind_eq_some_iff.mp run
  cases run
  have unlisted : Gentle s u := by
    apply Lib.walk_invariant (fun _ (w : List Tid × Kernel) => Gentle s w.2) _ fuel (refl s) walked
    intro cur w h w' before body
    obtain ⟨reaping, v⟩ := w
    rw [reapBody] at body
    split at body
    · split at body
      · obtain ⟨orphan, -, body⟩ := bind_eq_some_iff.mp body
        split at body
        · obtain ⟨x, removed, body⟩ := bind_eq_some_iff.mp body
          cases body
          exact before.trans (taskListRemoveFrom removed)
        · cases body
          exact before
      · cases body
        exact before
    · cases body
      exact before
  have freed : ∀ (ts : List Tid) (v : Kernel), Gentle v (ts.foldl reapTaskFree v) := by
    intro ts
    induction ts with
    | nil => exact refl
    | cons t ts ih =>
      intro v
      apply Looked.trans _ (ih _)
      rw [reapTaskFree]
      split
      · exact refl v
      · exact of_same rfl rfl rfl rfl
  exact unlisted.trans (freed toReap u)

theorem notifyParent {prev : Tid} (run : notifyParent fuel s prev = some s') : Gentle s s' := by
  rw [Sched.notifyParent] at run
  split at run
  · dsimp only at run
    split at run
    · obtain ⟨u, signalled, run⟩ := bind_eq_some_iff.mp run
      obtain ⟨found, -, run⟩ := bind_eq_some_iff.mp run
      apply (taskSignalLocked_gentle signalled).1.trans
      cases found with
      | none => exact some.inj run ▸ refl u
      | some parent =>
        cases run
        split
        · exact makeReady u parent
        · exact refl u
    · exact some.inj run ▸ refl s
  · exact some.inj run ▸ refl s

theorem wakeExpiredSleepers (run : wakeExpiredSleepers fuel s = some s') : Gentle s s' := by
  obtain ⟨⟨prev, u⟩, walked, rfl⟩ := map_eq_some_iff.mp run
  apply Lib.walk_invariant (fun _ (w : Option Tid × Kernel) => Gentle s w.2) _ fuel (refl s) walked
  intro cur w h w' before body
  obtain ⟨last, v⟩ := w
  rw [wakeExpiredBody] at body
  split at body
  · obtain ⟨⟨links, sq⟩, -, body⟩ := bind_eq_some_iff.mp body
    cases body
    have unlinked : Gentle v { v with queueNext := links, sleepQueue := sq } :=
      of_same rfl rfl rfl rfl
    apply (before.trans unlinked).trans
    apply Looked.trans _ (makeReady _ cur)
    exact adjust _ cur
  · cases body
    exact before

theorem pickFrom {levels : List Nat} (run : pickFrom levels s = some r) : Gentle s r.2 := by
  induction levels generalizing s r with
  | nil => exact some.inj run ▸ refl s
  | cons level rest ih =>
    obtain ⟨⟨t, u⟩, popped, run⟩ := bind_eq_some_iff.mp run
    have first := popLevel popped
    cases t with
    | none => exact first.trans (ih run)
    | some t => exact some.inj run ▸ first

theorem putPrev (s : Kernel) (prev : Tid) : Gentle s (putPrev s prev) := by
  rw [Sched.putPrev]
  split
  · exact makeReady s prev
  · exact of_same rfl rfl rfl rfl
  all_goals exact refl s

theorem scheduleLocked (run : scheduleLocked fuel s = some s') : Gentle s s' := by
  rw [Sched.scheduleLocked] at run
  split at run
  · exact some.inj run ▸ refl s
  split at run
  · exact some.inj run ▸ refl s
  rename_i prev _ _
  obtain ⟨u, notified, run⟩ := bind_eq_some_iff.mp run
  obtain ⟨v, woken, run⟩ := bind_eq_some_iff.mp run
  obtain ⟨⟨next, x⟩, picked, run⟩ := bind_eq_some_iff.mp run
  apply ((notifyParent notified).trans (wakeExpiredSleepers woken)).trans
  apply (pickFrom picked).trans
  cases next with
  | none => exact some.inj run ▸ refl x
  | some next =>
    dsimp only at run
    split at run
    · exact some.inj run ▸ refl x
    cases run
    apply (putPrev x prev).trans
    apply (Looked.setState (v := .running) _ next nofun nofun).trans
    exact of_same rfl rfl rfl rfl

theorem schedule (run : schedule fuel s = some s') : Gentle s s' := by
  have counted : Gentle s { s with reapCounter := (s.reapCounter + 1) % 2 ^ 32 } :=
    of_same rfl rfl rfl rfl
  apply counted.trans
  simp only [Sched.schedule, bind_eq_bind] at run
  split at run
  · obtain ⟨u, reaped, run⟩ := bind_eq_some_iff.mp run
    exact (taskReap reaped).trans (scheduleLocked run)
  · exact scheduleLocked run

end Gentle

/-! ## Looking at signals -/

theorem and_twoPow_eq_zero {x : BitVec 32} {i : Nat} (inside : i < 32) :
    x &&& twoPow 32 i = 0 ↔ x.getLsbD i = false := by
  rw [BitVec.and_twoPow]
  constructor
  · intro zero
    by_contra present
    rw [Bool.not_eq_false] at present
    rw [if_pos present] at zero
    have selected := congrArg (fun bits => bits.getLsbD i) zero
    simp [inside] at selected
  · intro absent
    rw [if_neg (by rw [absent]; decide)]
    rfl

theorem clear_getLsbD (x : BitVec 32) (i j : Nat) (inside : j < 32) :
    (x &&& ~~~(twoPow 32 i)).getLsbD j = (x.getLsbD j && decide (j ≠ i)) := by
  by_cases same : j = i
  · simp [same]
  · simp [inside]

/-- An entry of the table names one bit, the index of its handler, and says whether the
signal ends the process. -/
structure Entry (e : BitVec 32 × Nat × Bool) : Prop where
  bit : e.1 = twoPow 32 e.2.1
  inside : e.2.1 < nsig
  plain : e.2.2 = true → e.1 ≠ sigCont ∧ e.1 ≠ sigChld ∧ e.1 ≠ sigWinch

theorem entry_of_mem {e : BitVec 32 × Nat × Bool} (member : e ∈ signalTable) : Entry e := by
  have all : ∀ e ∈ signalTable, e.1 = twoPow 32 e.2.1 ∧ e.2.1 < nsig ∧
      (e.2.2 = true → e.1 ≠ sigCont ∧ e.1 ≠ sigChld ∧ e.1 ≠ sigWinch) := by
    decide
  obtain ⟨bit, inside, plain⟩ := all e member
  exact ⟨bit, inside, plain⟩

/-- The signal gets through and ends the process. -/
def endsBy (deliverable : BitVec 32) (p : ProcMeta) (e : BitVec 32 × Nat × Bool) : Prop :=
  deliverable.getLsbD e.2.1 = true ∧ e.2.2 = true ∧
    (p.signalHandlers e.2.1 = sigDfl ∨ p.signalHandlers e.2.1 = sigIgn)

namespace Looked

variable {t : Tid} {out : Option Tid} {s s' : Kernel}

theorem metaOf (looked : Looked out s s') (u : Tid) :
    (s'.metaOf u).parentPid = (s.metaOf u).parentPid ∧
      (s'.metaOf u).signalHandlers = (s.metaOf u).signalHandlers := by
  rw [Kernel.metaOf, looked.proc]
  exact looked.fixed _

theorem parented (looked : Looked out s s') (parented : Parented s) : Parented s' := by
  intro u v
  rw [(looked.metaOf u).1, looked.pid, looked.proc]
  exact parented u v

theorem userHandled (looked : Looked out s s') (bit : Nat) :
    userHandled (s'.metaOf t) bit = userHandled (s.metaOf t) bit := by
  rw [Sched.userHandled, (looked.metaOf t).2]
  rfl

theorem endsBy (looked : Looked out s s') (deliverable : BitVec 32) (e : BitVec 32 × Nat × Bool) :
    endsBy deliverable (s'.metaOf t) e ↔ endsBy deliverable (s.metaOf t) e := by
  rw [Sched.endsBy, (looked.metaOf t).2]
  rfl

end Looked

/-- `SIGCHLD` for the parent, before the process becomes a zombie. -/
theorem notified (parented : Parented s)
    (run : taskSignalLocked fuel s (s.metaOf t).parentPid sigChld = some s') :
    Looked (some t) s (s'.setState t .zombie) ∧ (s'.setState t .zombie).metaOf t = s.metaOf t := by
  obtain ⟨gentle, apart⟩ := taskSignalLocked_gentle run
  refine ⟨(Looked.of_gentle gentle).trans (.setState s' t (fun _ => rfl) nofun), ?_⟩
  have own := apart (s.proc t) fun listed u => parented t u listed
  change s'.procMeta (s'.proc t) = _
  rw [gentle.proc, own]
  rfl

variable {p : ProcMeta} {bit : Nat}

section Fold

variable {t : Tid} {s s' : Kernel} {fuel : Nat} {deliverable : BitVec 32}
  {e : BitVec 32 × Nat × Bool}

/-- What looking at one signal of a task that has not ended can do. -/
inductive HandledBit (deliverable : BitVec 32) (t : Tid) (s : Kernel)
    (e : BitVec 32 × Nat × Bool) : Kernel → Prop
  | absent (blocked : deliverable.getLsbD e.2.1 = false) : HandledBit deliverable t s e s
  | ended {s' : Kernel} (ends : endsBy deliverable (s.metaOf t) e) (looked : Looked (some t) s s')
      (zombie : s'.state t = .zombie)
      (rest : ∀ j < 32, j ≠ e.2.1 → pends (s'.metaOf t) j = pends (s.metaOf t) j) :
      HandledBit deliverable t s e s'
  | passed {s' : Kernel} (through : deliverable.getLsbD e.2.1 = true)
      (silent : ¬ endsBy deliverable (s.metaOf t) e) (looked : Looked (some t) s s')
      (awake : s'.state t ≠ .zombie)
      (rest : ∀ j < 32, j ≠ e.2.1 → pends (s'.metaOf t) j = pends (s.metaOf t) j)
      (own : pends (s'.metaOf t) e.2.1 = true ↔ (e.1 = sigChld ∨ e.1 = sigWinch) ∧
        (s.metaOf t).signalHandlers e.2.1 ≠ sigDfl ∧
        (s.metaOf t).signalHandlers e.2.1 ≠ sigIgn) :
      HandledBit deliverable t s e s'

theorem handleSignalBit_cases (entry : Entry e) (parented : Parented s)
    (alive : s.state t ≠ .zombie)
    (run : handleSignalBit fuel t deliverable e.1 e.2.1 e.2.2 s = some s') :
    HandledBit deliverable t s e s' := by
  have inside : e.2.1 < 32 := lt_trans entry.inside (by decide)
  rw [handleSignalBit] at run
  by_cases through : deliverable.getLsbD e.2.1 = false
  · rw [entry.bit, if_pos ((and_twoPow_eq_zero inside).mpr through)] at run
    cases run
    exact .absent through
  have nonzero : ¬ deliverable &&& e.1 = 0 := by
    rw [entry.bit]
    exact fun zero => through ((and_twoPow_eq_zero inside).mp zero)
  rw [Bool.not_eq_false] at through
  rw [if_neg nonzero, if_neg alive] at run
  dsimp only at run
  -- the bit is taken out of the word before anything else is looked at
  generalize marked : s.updateMeta t (fun m =>
    { m with pendingSignals := m.pendingSignals &&& ~~~e.1 }) = cleared at run
  have looked : Looked (some t) s cleared := marked ▸ .own s t fun _ => ⟨rfl, rfl⟩
  have word : (cleared.metaOf t).pendingSignals = (s.metaOf t).pendingSignals &&& ~~~e.1 := by
    rw [← marked, metaOf_updateMeta_self]
  have state : cleared.state = s.state := marked ▸ rfl
  have handlers := (looked.metaOf t).2
  have rest : ∀ j < 32, j ≠ e.2.1 → pends (cleared.metaOf t) j = pends (s.metaOf t) j := by
    intro j bound other
    rw [pends, word, entry.bit, clear_getLsbD _ _ _ bound, decide_eq_true other, Bool.and_true]
    rfl
  have gone : pends (cleared.metaOf t) e.2.1 = false := by
    rw [pends, word, entry.bit, clear_getLsbD _ _ _ inside]
    simp
  rw [handlers] at run
  have passed : ∀ {u : Kernel}, ¬ endsBy deliverable (s.metaOf t) e → Looked (some t) s u →
      u.state t ≠ .zombie → u.metaOf t = cleared.metaOf t →
      ¬ ((e.1 = sigChld ∨ e.1 = sigWinch) ∧ (s.metaOf t).signalHandlers e.2.1 ≠ sigDfl ∧
        (s.metaOf t).signalHandlers e.2.1 ≠ sigIgn) →
      HandledBit deliverable t s e u := by
    intro u silent looked awake same dropped
    refine .passed through silent looked awake (same ▸ rest) ?_
    rw [same, gone]
    exact ⟨(fun pending => nomatch pending), fun kept => absurd kept dropped⟩
  by_cases continued : e.1 = sigCont
  · have silent : ¬ endsBy deliverable (s.metaOf t) e :=
      fun ends => (entry.plain ends.2.1).1 continued
    rw [if_pos continued] at run
    split at run
    · cases run
      apply passed silent
      · exact looked.trans (.setState cleared t nofun nofun)
      · simp [Kernel.setState]
      · rfl
      · rw [continued]
        exact fun kept => absurd kept.1 (by decide)
    · cases run
      apply passed silent looked (by rw [state]; exact alive) rfl
      rw [continued]
      exact fun kept => absurd kept.1 (by decide)
  rw [if_neg continued] at run
  by_cases child : e.1 = sigChld ∨ e.1 = sigWinch
  · have silent : ¬ endsBy deliverable (s.metaOf t) e := by
      intro ends
      obtain ⟨-, notChild, notWinch⟩ := entry.plain ends.2.1
      exact child.elim notChild notWinch
    rw [if_pos child] at run
    split at run
    · rename_i caught
      cases run
      have again : ∀ j < 32, pends ((cleared.updateMeta t fun m =>
          { m with pendingSignals := m.pendingSignals ||| e.1 }).metaOf t) j =
            (pends (cleared.metaOf t) j || decide (j = e.2.1)) := by
        intro j bound
        rw [metaOf_updateMeta_self]
        change (_ ||| e.1).getLsbD j = _
        rw [BitVec.getLsbD_or, entry.bit, BitVec.getLsbD_twoPow, decide_eq_true inside,
          Bool.true_and, decide_eq_decide.mpr (eq_comm (a := e.2.1))]
        rfl
      refine .passed through silent ?_
        (by change cleared.state t ≠ _; rw [state]; exact alive) ?_ ?_
      · exact looked.trans (.own cleared t fun _ => ⟨rfl, rfl⟩)
      · intro j bound other
        rw [again j bound, rest j bound other, decide_eq_false other, Bool.or_false]
      · rw [again e.2.1 inside]
        simp [child, caught]
    · rename_i uncaught
      cases run
      exact passed silent looked (by rw [state]; exact alive) rfl fun kept => uncaught kept.2
  rw [if_neg child] at run
  split at run
  · rename_i fatal
    obtain ⟨u, told, last⟩ := bind_eq_some_iff.mp run
    cases last
    obtain ⟨ended, same⟩ := notified (looked.parented parented) told
    apply HandledBit.ended ⟨through, fatal⟩ (looked.trans ended)
    · simp [Kernel.setState]
    · rw [same]
      exact rest
  · rename_i survives
    cases run
    exact passed (fun ends => survives ends.2) looked (by rw [state]; exact alive) rfl
      fun kept => child kept.1

/-- The walk over the table. -/
def handleAll (fuel : Nat) (t : Tid) (deliverable : BitVec 32)
    (table : List (BitVec 32 × Nat × Bool)) (s : Kernel) : Option Kernel :=
  table.foldlM (fun s e => handleSignalBit fuel t deliverable e.1 e.2.1 e.2.2 s) s

variable {table : List (BitVec 32 × Nat × Bool)}

theorem handleAll_zombie (ended : s.state t = .zombie) {s' : Kernel}
    (run : handleAll fuel t deliverable table s = some s') : s' = s := by
  induction table generalizing s' with
  | nil => exact (some.inj run).symm
  | cons e table ih =>
    obtain ⟨u, first, run⟩ := bind_eq_some_iff.mp run
    change handleSignalBit fuel t deliverable e.1 e.2.1 e.2.2 s = some u at first
    rw [handleSignalBit, if_pos ended, ite_self] at first
    cases first
    exact ih run

theorem handleAll_nothing (s : Kernel) : handleAll fuel t 0 table s = some s := by
  induction table with
  | nil => rfl
  | cons e table ih =>
    change (handleSignalBit fuel t 0 e.1 e.2.1 e.2.2 s).bind _ = some s
    have blocked : (0 : BitVec 32) &&& e.1 = 0 := BitVec.zero_and
    rw [handleSignalBit, if_pos blocked]
    exact ih

/-- What looking at all signals of a table does to the task. -/
structure HandledAll (deliverable : BitVec 32) (t : Tid) (s : Kernel)
    (table : List (BitVec 32 × Nat × Bool)) (s' : Kernel) : Prop where
  looked : Looked (some t) s s'
  zombie : s'.state t = .zombie ↔ ∃ e ∈ table, endsBy deliverable (s.metaOf t) e
  unlisted : ∀ j < 32, (∀ e ∈ table, e.2.1 ≠ j) → pends (s'.metaOf t) j = pends (s.metaOf t) j
  lost : ∀ j < 32, userHandled (s.metaOf t) j = true → pends (s.metaOf t) j = true →
    (pends (s'.metaOf t) j = false ↔
      (∃ e ∈ table, e.2.1 = j ∧ deliverable.getLsbD j = true ∧
        ¬ (e.1 = sigChld ∨ e.1 = sigWinch)) ∧
      ∀ c ∈ table, c.2.1 < j → ¬ endsBy deliverable (s.metaOf t) c)

theorem userHandled_fields (handled : userHandled p bit = true) :
    bit < nsig ∧ uncatchable bit = false ∧ p.signalHandlers bit ≠ sigDfl ∧
      p.signalHandlers bit ≠ sigIgn := by
  rw [userHandled, decide_eq_true_eq] at handled
  exact handled

theorem uncatchable_cases (uncaught : uncatchable bit = true) : bit = 0 ∨ bit = 2 := by
  have inside : bit < 32 := BitVec.lt_of_getLsbD uncaught
  have all : ∀ bit < 32, uncatchable bit = true → bit = 0 ∨ bit = 2 := by decide
  exact all bit inside uncaught

theorem unblocked_pends (open_ : unblocked p bit = true) :
    pends p bit = true := by
  rw [unblocked, Bool.and_eq_true] at open_
  exact open_.1

/-- By induction on the table, which is sorted by bit: a signal is lost when it is reached
before one that ends the process. -/
theorem handleAll_cases {s : Kernel} (entries : ∀ e ∈ table, Entry e)
    (sorted : table.Pairwise (fun c e => c.2.1 < e.2.1)) (parented : Parented s)
    (alive : s.state t ≠ .zombie) (run : handleAll fuel t deliverable table s = some s') :
    HandledAll deliverable t s table s' := by
  induction table generalizing s with
  | nil =>
    obtain rfl := some.inj run
    refine ⟨.of_gentle (.refl s), ?_, fun _ _ _ => rfl, ?_⟩
    · simp [alive]
    · intro j _ _ pending
      simp [pending]
  | cons e table ih =>
    obtain ⟨u, first, run⟩ := bind_eq_some_iff.mp run
    obtain ⟨before, sorted⟩ := pairwise_cons.mp sorted
    have entry := entries e mem_cons_self
    have later : ∀ c ∈ table, Entry c := fun c member => entries c (mem_cons_of_mem e member)
    rcases handleSignalBit_cases entry parented alive first with
      blocked | ⟨ends, looked, zombie, rest⟩ | ⟨through, silent, looked, awake, rest, own⟩
    · obtain ⟨looked, zombie, unlisted, lost⟩ := ih later sorted parented alive run
      have silent : ¬ endsBy deliverable (s.metaOf t) e :=
        fun ends => nomatch blocked.symm.trans ends.1
      refine ⟨looked, ?_, ?_, ?_⟩
      · rw [zombie]
        simp [silent]
      · intro j bound apart
        exact unlisted j bound fun c member => apart c (mem_cons_of_mem e member)
      · intro j bound handled pending
        have unreached : ¬ (e.2.1 = j ∧ deliverable.getLsbD j = true ∧
            ¬ (e.1 = sigChld ∨ e.1 = sigWinch)) := by
          rintro ⟨rfl, through, -⟩
          cases blocked.symm.trans through
        rw [lost j bound handled pending, exists_mem_cons_iff, forall_mem_cons,
          or_iff_right unreached, and_iff_right fun _ => silent]
    · obtain rfl := handleAll_zombie zombie run
      refine ⟨looked, ?_, ?_, ?_⟩
      · simp [zombie, ends]
      · intro j bound apart
        exact rest j bound (Ne.symm (apart e mem_cons_self))
      · intro j bound handled pending
        have other : j ≠ e.2.1 := by
          rintro rfl
          obtain ⟨-, -, caught, caught'⟩ := userHandled_fields handled
          exact ends.2.2.elim caught caught'
        rw [rest j bound other, pending]
        constructor
        · intro impossible
          cases impossible
        · rintro ⟨⟨c, member, rfl, -⟩, spared⟩
          rcases mem_cons.mp member with same | member
          · exact absurd (congrArg (·.2.1) same) other
          · exact absurd ends (spared e mem_cons_self (before c member))
    · obtain ⟨looked', zombie, unlisted, lost⟩ :=
        ih later sorted (looked.parented parented) awake run
      refine ⟨looked.trans looked', ?_, ?_, ?_⟩
      · rw [zombie]
        simp [silent, looked.endsBy]
      · intro j bound apart
        rw [unlisted j bound fun c member => apart c (mem_cons_of_mem e member)]
        exact rest j bound (Ne.symm (apart e mem_cons_self))
      · intro j bound handled pending
        by_cases same : j = e.2.1
        · subst same
          -- the rest of the table has higher bits only
          rw [unlisted _ bound fun c member => (before c member).ne']
          have low : ∀ c ∈ e :: table, ¬ c.2.1 < e.2.1 := by
            intro c member
            rcases mem_cons.mp member with rfl | member
            · exact lt_irrefl _
            · exact not_lt.mpr (before c member).le
          have only : ∀ c ∈ e :: table, c.2.1 = e.2.1 → c = e := by
            intro c member same
            rcases mem_cons.mp member with rfl | member
            · rfl
            · exact absurd same (before c member).ne'
          rw [← Bool.not_eq_true, own]
          constructor
          · intro dropped
            refine ⟨⟨e, mem_cons_self, rfl, through, ?_⟩, ?_⟩
            · exact fun child => dropped ⟨child, (userHandled_fields handled).2.2⟩
            · exact fun c member lower => absurd lower (low c member)
          · rintro ⟨⟨c, member, bit, -, plain⟩, -⟩ ⟨child, -⟩
            rw [only c member bit] at plain
            exact plain child
        · rw [← rest j bound same] at pending
          rw [← looked.userHandled] at handled
          simp only [lost j bound handled pending, looked.endsBy]
          rw [exists_mem_cons_iff, forall_mem_cons, and_iff_right fun _ => silent,
            or_iff_right fun reached => same reached.1.symm]

end Fold

/-! ## A whole round of `task_handle_signals` -/

/-- No caught signal leaves the pending word, and nothing ends or stops for an ignored one. -/
structure Harmless (s s' : Kernel) : Prop where
  kept : ∀ p bit, userHandled (s.procMeta p) bit = true → pends (s.procMeta p) bit = true →
    pends (s'.procMeta p) bit = true
  ended : ∀ t, s.state t ≠ .zombie → s'.state t = .zombie → deserved (s.metaOf t)
  stopped : ∀ t, s.state t ≠ .sleeping → s'.state t = .sleeping → deserved (s.metaOf t)

theorem Gentle.harmless (gentle : Gentle s s') : Harmless s s' :=
  ⟨fun p bit _ => gentle.grows p nofun bit,
    fun t alive ended => absurd (gentle.zombie t nofun ended) alive,
    fun t awake stopped => absurd (gentle.asleep t stopped) awake⟩

/-- Only the task that is looked at can come to harm. -/
theorem Looked.harmless_iff (looked : Looked (some t) s s') :
    Harmless s s' ↔
      (∀ bit, Sched.userHandled (s.metaOf t) bit = true → pends (s.metaOf t) bit = true →
        pends (s'.metaOf t) bit = true) ∧
      (s.state t ≠ .zombie → s'.state t = .zombie → deserved (s.metaOf t)) := by
  have own : s'.metaOf t = s'.procMeta (s.proc t) := by rw [Kernel.metaOf, looked.proc]
  constructor
  · intro harmless
    refine ⟨?_, harmless.ended t⟩
    rw [own]
    exact harmless.kept (s.proc t)
  · rintro ⟨kept, ended⟩
    refine ⟨?_, ?_, fun u awake stopped => absurd (looked.asleep u stopped) awake⟩
    · intro p bit handled pending
      by_cases same : p = s.proc t
      · rw [same] at handled pending ⊢
        rw [← own]
        exact kept bit handled pending
      · exact looked.grows p (fun _ here => some.inj here ▸ same) bit pending
    · intro u alive zombie
      by_cases same : u = t
      · rw [same] at alive zombie ⊢
        exact ended alive zombie
      · exact absurd (looked.zombie u (fun here => same (some.inj here).symm) zombie) alive

theorem uncatchable_pends (inside : bit < 32)
    (pending : p.pendingSignals &&& twoPow 32 bit ≠ 0) : pends p bit = true := by
  rw [pends, ← Bool.not_eq_false]
  exact fun absent => pending ((and_twoPow_eq_zero inside).mpr absent)

theorem sigKill_bit : sigKill = twoPow 32 0 := by decide

theorem sigStop_bit : sigStop = twoPow 32 2 := by decide

theorem killed_iff (looked : Looked (some t) s s')
    (kill : (s.metaOf t).pendingSignals &&& sigKill ≠ 0)
    (emptied : (s'.metaOf t).pendingSignals = 0) :
    Harmless s s' ↔
      ∀ bit, userHandled (s.metaOf t) bit = true → pends (s.metaOf t) bit = false := by
  have deserves : deserved (s.metaOf t) := by
    refine ⟨0, inl ⟨by decide, ?_⟩⟩
    rw [sigKill_bit] at kill
    exact uncatchable_pends (by decide) kill
  have none_left : ∀ bit, pends (s'.metaOf t) bit = false := by
    intro bit
    rw [pends, emptied]
    exact BitVec.getLsbD_zero
  rw [looked.harmless_iff]
  constructor
  · rintro ⟨kept, -⟩ bit handled
    by_contra pending
    rw [Bool.not_eq_false] at pending
    cases (none_left bit).symm.trans (kept bit handled pending)
  · intro clear
    refine ⟨?_, fun _ _ => deserves⟩
    intro bit handled pending
    cases (clear bit handled).symm.trans pending

theorem endSigsuspend_fields (p : ProcMeta) :
    (endSigsuspend p).pendingSignals = p.pendingSignals ∧
      (endSigsuspend p).signalHandlers = p.signalHandlers ∧
      (endSigsuspend p).parentPid = p.parentPid := by
  rw [endSigsuspend]
  split <;> exact ⟨rfl, rfl, rfl⟩

theorem endSigsuspend_gentle (s : Kernel) (t : Tid) : Gentle s (s.updateMeta t endSigsuspend) := by
  apply Gentle.adjust
  · intro p
    obtain ⟨-, handlers, parent⟩ := endSigsuspend_fields p
    exact ⟨parent, handlers⟩
  · exact fun p => (endSigsuspend_fields p).1

theorem terminates_iff (bit : Nat) :
    terminates bit = true ↔ ∃ e ∈ signalTable, e.2.1 = bit ∧ e.2.2 = true := by
  rw [terminates, List.any_eq_true]
  simp

variable {deliverable : BitVec 32} {words : List Nat} {m' : Machine}

theorem endsBy_iff (through : ∀ j < 32, deliverable.getLsbD j = unblocked p j)
    (bound : Nat → Prop) :
    (∃ e ∈ signalTable, bound e.2.1 ∧ endsBy deliverable p e) ↔ ∃ bit, bound bit ∧ ends p bit := by
  constructor
  · rintro ⟨e, member, low, open_, term, handler⟩
    rw [through _ (lt_trans (entry_of_mem member).inside (by decide))] at open_
    exact ⟨e.2.1, low, (terminates_iff _).mpr ⟨e, member, rfl, term⟩, open_, handler⟩
  · rintro ⟨bit, low, term, open_, handler⟩
    obtain ⟨e, member, rfl, fatal⟩ := (terminates_iff bit).mp term
    refine ⟨e, member, low, ?_, fatal, handler⟩
    rw [through _ (lt_trans (entry_of_mem member).inside (by decide))]
    exact open_

theorem listed_iff (inside : bit < nsig) (catchable : uncatchable bit = false) :
    (∃ e ∈ signalTable, e.2.1 = bit ∧ ¬ (e.1 = sigChld ∨ e.1 = sigWinch)) ↔
      spared bit = false := by
  have all : ∀ bit < nsig, uncatchable bit = false →
      ((∃ e ∈ signalTable, e.2.1 = bit ∧ ¬ (e.1 = sigChld ∨ e.1 = sigWinch)) ↔
        spared bit = false) := by
    decide
  exact all bit inside catchable

theorem endsFirst.unique {other : Nat} (first : endsFirst p bit) (second : endsFirst p other) :
    bit = other := by
  rcases lt_trichotomy bit other with less | same | less
  · exact absurd first.1 (second.2 bit less)
  · exact same
  · exact absurd second.1 (first.2 other less)

theorem exists_endsFirst (some : ∃ bit, ends p bit) : ∃ bit, endsFirst p bit := by
  classical
  exact ⟨Nat.find some, Nat.find_spec some, fun _ => Nat.find_min some⟩

theorem looked_iff {s₁ : Kernel} (quiet : Gentle s s₁)
    (own : ∀ bit, pends (s₁.metaOf t) bit = pends (s.metaOf t) bit) (alive : s.state t ≠ .zombie)
    (nokill : pends (s.metaOf t) 0 = false) (nostop : pends (s.metaOf t) 2 = false)
    (through : ∀ j < 32, deliverable.getLsbD j = unblocked (s.metaOf t) j)
    (all : HandledAll deliverable t s₁ signalTable s') :
    Harmless s s' ↔
      (∀ bit, userHandled (s.metaOf t) bit = true → unblocked (s.metaOf t) bit = true →
          spared bit = false → ∃ earlier < bit, ends (s.metaOf t) earlier) ∧
        ∀ bit, endsFirst (s.metaOf t) bit → (s.metaOf t).signalHandlers bit = sigDfl := by
  have started : Looked (some t) s s₁ := .of_gentle quiet
  have zombie : s'.state t = .zombie ↔ ∃ bit, ends (s.metaOf t) bit := by
    rw [all.zombie]
    simp only [started.endsBy]
    simpa using endsBy_iff through fun _ => True
  have lost : ∀ bit, userHandled (s.metaOf t) bit = true → pends (s.metaOf t) bit = true →
      (pends (s'.metaOf t) bit = false ↔
        (unblocked (s.metaOf t) bit = true ∧ spared bit = false) ∧
          ¬ ∃ earlier < bit, ends (s.metaOf t) earlier) := by
    intro bit handled pending
    obtain ⟨inside, catchable, -⟩ := userHandled_fields handled
    have bound : bit < 32 := lt_trans inside (by decide)
    rw [← listed_iff inside catchable, ← endsBy_iff through (· < bit), ← through bit bound]
    rw [← started.userHandled] at handled
    rw [← own] at pending
    rw [all.lost bit bound handled pending]
    simp only [started.endsBy]
    constructor
    · rintro ⟨⟨e, member, same, open_, plain⟩, spares⟩
      refine ⟨⟨open_, e, member, same, plain⟩, ?_⟩
      rintro ⟨c, listed, lower, fatal⟩
      exact spares c listed lower fatal
    · rintro ⟨⟨open_, e, member, same, plain⟩, spares⟩
      refine ⟨⟨e, member, same, open_, plain⟩, ?_⟩
      exact fun c listed lower fatal => spares ⟨c, listed, lower, fatal⟩
  have deserves : deserved (s.metaOf t) ↔
      ∃ bit, endsFirst (s.metaOf t) bit ∧ (s.metaOf t).signalHandlers bit = sigDfl := by
    constructor
    · rintro ⟨bit, ⟨uncaught, pending⟩ | first⟩
      · rcases uncatchable_cases uncaught with rfl | rfl
        · cases nokill.symm.trans pending
        · cases nostop.symm.trans pending
      · exact ⟨bit, first⟩
    · exact fun ⟨bit, first⟩ => ⟨bit, inr first⟩
  rw [(started.trans all.looked).harmless_iff, zombie, deserves]
  refine and_congr ?_ ⟨?_, ?_⟩
  rotate_left
  · intro ended bit first
    obtain ⟨other, least, default⟩ := ended alive ⟨bit, first.1⟩
    rwa [first.unique least]
  · intro default _ some
    obtain ⟨bit, first⟩ := exists_endsFirst some
    exact ⟨bit, first, default bit first⟩
  constructor
  · intro kept bit handled open_ plain
    have pending := unblocked_pends open_
    by_contra spared
    have gone := (lost bit handled pending).mpr ⟨⟨open_, plain⟩, spared⟩
    cases gone.symm.trans (kept bit handled pending)
  · intro spares bit handled pending
    by_contra gone
    rw [Bool.not_eq_true] at gone
    obtain ⟨⟨open_, plain⟩, none_earlier⟩ := (lost bit handled pending).mp gone
    exact none_earlier (spares bit handled open_ plain)

theorem Parented.of_same (parented : Parented s) (proc : s'.proc = s.proc) (pid : s'.pid = s.pid)
    (parent : ∀ p, (s'.procMeta p).parentPid = (s.procMeta p).parentPid) : Parented s' := by
  intro u v
  rw [Kernel.metaOf, proc, pid, parent]
  exact parented u v

theorem stopped_harmless {s₁ : Kernel} (looked : Looked (some t) s s₁)
    (word : (s₁.metaOf t).pendingSignals = (s.metaOf t).pendingSignals &&& ~~~sigStop)
    (state : s₁.state = s.state) (stop : (s.metaOf t).pendingSignals &&& sigStop ≠ 0) :
    Harmless s (s₁.setState t .sleeping) := by
  have deserves : deserved (s.metaOf t) := by
    refine ⟨2, inl ⟨by decide, ?_⟩⟩
    rw [sigStop_bit] at stop
    exact uncatchable_pends (by decide) stop
  have kept : ∀ bit, userHandled (s.metaOf t) bit = true → pends (s.metaOf t) bit = true →
      pends (s₁.metaOf t) bit = true := by
    intro bit handled pending
    obtain ⟨inside, catchable, -⟩ := userHandled_fields handled
    have other : bit ≠ 2 := by
      rintro rfl
      cases catchable
    rw [pends, word, sigStop_bit, clear_getLsbD _ _ _ (lt_trans inside (by decide)),
      decide_eq_true other, Bool.and_true]
    exact pending
  have before : Harmless s s₁ :=
    looked.harmless_iff.mpr ⟨kept, fun alive ended => absurd (state ▸ ended) alive⟩
  refine ⟨before.kept, ?_, ?_⟩
  · exact (forall_update_iff s₁.state (p := fun u v => s.state u ≠ .zombie → v = .zombie →
      deserved (s.metaOf u))).mpr ⟨fun _ => nofun, fun u _ => before.ended u⟩
  · exact (forall_update_iff s₁.state (p := fun u v => s.state u ≠ .sleeping → v = .sleeping →
      deserved (s.metaOf u))).mpr ⟨fun _ _ => deserves, fun u _ => before.stopped u⟩

theorem handle_iff {s s' : Kernel} (parented : Parented s)
    (run : taskHandleSignals fuel s t = some s') :
    (Harmless s s' ↔ Careful s t) ∧ Parented s' := by
  rw [taskHandleSignals] at run
  rw [Careful]
  by_cases null : s.proc t = 0
  · rw [if_pos null] at run
    cases run
    exact ⟨⟨fun _ => inl null, fun _ => (Gentle.refl s).harmless⟩, parented⟩
  by_cases idle : (s.metaOf t).pendingSignals = 0
  · rw [if_neg null, if_pos idle] at run
    cases run
    exact ⟨⟨fun _ => inr (inl idle), fun _ => (Gentle.refl s).harmless⟩, parented⟩
  rw [if_neg null, if_neg idle] at run
  rw [or_iff_right null, or_iff_right idle]
  have quiet := endSigsuspend_gentle s t
  have started : Looked (some t) s (s.updateMeta t endSigsuspend) := .of_gentle quiet
  have same : (s.updateMeta t endSigsuspend).metaOf t = endSigsuspend (s.metaOf t) :=
    metaOf_updateMeta_self s t _
  have state : (s.updateMeta t endSigsuspend).state = s.state := rfl
  obtain ⟨word, -⟩ := endSigsuspend_fields (s.metaOf t)
  generalize s.updateMeta t endSigsuspend = s₁ at run quiet started same state
  dsimp only at run
  rw [same, word] at run
  by_cases kill : (s.metaOf t).pendingSignals &&& sigKill ≠ 0
  · rw [if_pos kill] at run
    rw [if_pos kill]
    obtain ⟨u, told, last⟩ := bind_eq_some_iff.mp run
    cases last
    have emptied : Looked (some t) s₁ (s₁.updateMeta t fun m => { m with pendingSignals := 0 }) :=
      .own s₁ t fun _ => ⟨rfl, rfl⟩
    have cleared := started.trans emptied
    obtain ⟨ended, kept⟩ := notified (cleared.parented parented) told
    have looked := cleared.trans ended
    refine ⟨killed_iff looked kill ?_, looked.parented parented⟩
    rw [kept, metaOf_updateMeta_self]
  rw [if_neg kill] at run
  rw [if_neg kill]
  by_cases stop : (s.metaOf t).pendingSignals &&& sigStop ≠ 0
  · rw [if_pos stop] at run
    rw [if_pos stop]
    cases run
    have cleared : Looked (some t) s (s₁.updateMeta t fun m =>
        { m with pendingSignals := m.pendingSignals &&& ~~~sigStop }) :=
      started.trans (.own s₁ t fun _ => ⟨rfl, rfl⟩)
    refine ⟨iff_true_intro ?_, (cleared.parented parented).of_same rfl rfl fun _ => rfl⟩
    exact stopped_harmless cleared (by rw [metaOf_updateMeta_self, same, word]) state stop
  rw [if_neg stop] at run
  rw [if_neg stop]
  by_cases zombie : s.state t = .zombie
  · have settled : s' = s₁ := by
      split at run
      · exact (some.inj run).symm
      · exact handleAll_zombie (by rw [state]; exact zombie) run
    rw [settled]
    exact ⟨⟨fun _ => inl zombie, fun _ => quiet.harmless⟩, started.parented parented⟩
  rw [or_iff_right zombie]
  have through : ∀ j < 32, ((s.metaOf t).pendingSignals &&&
      ~~~(endSigsuspend (s.metaOf t)).signalMask).getLsbD j = unblocked (s.metaOf t) j := by
    intro j bound
    rw [BitVec.getLsbD_and, BitVec.getLsbD_not, decide_eq_true bound, Bool.true_and]
    rfl
  have all : HandledAll ((s.metaOf t).pendingSignals &&&
      ~~~(endSigsuspend (s.metaOf t)).signalMask) t s₁ signalTable s' := by
    apply handleAll_cases (fun e => entry_of_mem) (by decide) (started.parented parented)
    · rw [state]
      exact zombie
    · split at run
      · rename_i none_open
        obtain rfl := some.inj run
        rw [none_open]
        exact handleAll_nothing s₁
      · exact run
  refine ⟨?_, (started.trans all.looked).parented parented⟩
  apply looked_iff quiet _ zombie _ _ through all
  · intro bit
    rw [same, pends, word]
    rfl
  · rw [ne_eq, not_not, sigKill_bit] at kill
    exact (and_twoPow_eq_zero (by decide)).mp kill
  · rw [ne_eq, not_not, sigStop_bit] at stop
    exact (and_twoPow_eq_zero (by decide)).mp stop

/-! ## Delivery on the way back to the user -/

theorem writeWords_below : ∀ {mem : Nat → Nat} {addr x : Nat}, x < addr →
    writeWords mem addr words x = mem x := by
  induction words with
  | nil => exact fun _ => rfl
  | cons word words ih =>
    intro mem addr x below
    rw [writeWords, ih (by omega), update_of_ne (by omega)]

theorem writeWords_get : ∀ {mem : Nat → Nat} {addr i word : Nat},
    words[i]? = some word → writeWords mem addr words (addr + 4 * i) = word := by
  induction words with
  | nil =>
    intro mem addr i word found
    cases found
  | cons first words ih =>
    intro mem addr i word found
    cases i with
    | zero =>
      rw [writeWords, writeWords_below (by omega), mul_zero, add_zero,
        update_self]
      exact some.inj found
    | succ i =>
      rw [writeWords, show addr + 4 * (i + 1) = addr + 4 + 4 * i by omega]
      exact ih found

variable {m : Machine}

theorem lossless_same (a : SigAction) (same : m'.kernel = m.kernel) : Lossless m a m' := by
  refine ⟨?_, ?_, ?_⟩
  · intro p bit _ pending gone
    rw [same] at gone
    cases gone.symm.trans pending
  · intro u alive ended
    rw [same] at ended
    exact absurd ended alive
  · intro u awake stopped
    rw [same] at stopped
    exact absurd stopped awake

theorem deliver_lossless (m : Machine) (t : Tid) (regs : SyscallFrame) :
    Lossless m (.syscallReturn regs) (m.deliverPendingSignal t regs) := by
  rw [Machine.deliverPendingSignal]
  split
  · exact lossless_same _ rfl
  rename_i delivered found
  refine ⟨?_, fun u alive ended => absurd ended alive, fun u awake stopped => absurd stopped awake⟩
  intro p bit handled pending gone
  change pends (update m.kernel.procMeta (m.kernel.proc t) _ p) bit = false at gone
  by_cases same : p = m.kernel.proc t
  · rw [same, update_self, pends,
      clear_getLsbD _ _ _ (lt_trans (userHandled_fields handled).1 (by decide))] at gone
    rw [same] at pending ⊢
    have taken : bit = delivered := by
      by_contra other
      rw [decide_eq_true other, Bool.and_true] at gone
      cases gone.symm.trans pending
    subst taken
    refine ⟨regs, t, rfl, rfl, ?_, ?_, ?_⟩
    · change (update m.regs t _ t).eip = _
      rw [update_self]
      rfl
    · change (update m.regs t _ t).useresp = _
      rw [update_self]
    · intro i word there
      change update m.user t _ t _ = word
      rw [update_self]
      exact writeWords_get there
  · rw [update_of_ne same] at gone
    cases gone.symm.trans pending

/-! ## Steps and runs -/

theorem lossless_iff {kernel : Kernel} (inside : ∀ regs, a ≠ .syscallReturn regs) :
    Lossless m a { m with kernel := kernel } ↔ Harmless m.kernel kernel := by
  constructor
  · intro lossless
    refine ⟨?_, lossless.ended, lossless.stopped⟩
    intro p bit handled pending
    by_contra gone
    rw [Bool.not_eq_true] at gone
    obtain ⟨regs, -, same, -⟩ := lossless.kept p bit handled pending gone
    exact inside regs same
  · intro harmless
    refine ⟨?_, harmless.ended, harmless.stopped⟩
    intro p bit handled pending gone
    cases gone.symm.trans (harmless.kept p bit handled pending)

def Machine.Step (m : Machine) (a : SigAction) (m' : Machine) : Prop :=
  ∃ fuel, m.step fuel a = some m'

theorem gentle_step {result : Option Kernel}
    (run : (result.map fun kernel => { m with kernel := kernel }) = some m')
    (inside : ∀ regs, a ≠ .syscallReturn regs) (keeps : Keeps m a)
    (gentle : ∀ kernel, result = some kernel → Gentle m.kernel kernel)
    (parented : Parented m.kernel) : (Lossless m a m' ↔ Keeps m a) ∧ Parented m'.kernel := by
  obtain ⟨kernel, ran, rfl⟩ := map_eq_some_iff.mp run
  have gentle := gentle kernel ran
  refine ⟨?_, parented.of_same gentle.proc gentle.pid fun p => (gentle.fixed p).1⟩
  rw [lossless_iff inside]
  exact ⟨fun _ => keeps, fun _ => gentle.harmless⟩

theorem sigaction_harmless (s : Kernel) (t : Tid) (signum handler : Nat) :
    Harmless s (taskSigaction s t signum handler) ∧
      (Parented s → Parented (taskSigaction s t signum handler)) := by
  rw [taskSigaction]
  split
  · exact ⟨(Gentle.refl s).harmless, id⟩
  split
  · exact ⟨(Gentle.refl s).harmless, id⟩
  split
  · exact ⟨(Gentle.refl s).harmless, id⟩
  refine
    ⟨⟨?_, fun u alive ended => absurd ended alive, fun u awake stopped => absurd stopped awake⟩,
    fun parented => parented.of_same rfl rfl ?_⟩
  · exact (forall_update_iff s.procMeta (p := fun p m => ∀ bit,
      userHandled (s.procMeta p) bit = true → pends (s.procMeta p) bit = true →
        pends m bit = true)).mpr ⟨fun _ _ pending => pending, fun _ _ _ _ pending => pending⟩
  · exact (forall_update_iff s.procMeta
      (p := fun p m => m.parentPid = (s.procMeta p).parentPid)).mpr ⟨rfl, fun _ _ => rfl⟩

theorem sigprocmask_gentle (s : Kernel) (t : Tid) (how : Nat) (set : BitVec 32) :
    Gentle s (procctlSigprocmask s t how set) := by
  rw [procctlSigprocmask.eq_def]
  split
  · exact .adjust s t
  · exact .adjust s t
  · exact .adjust s t
  · exact .refl s

theorem step_iff (parented : Parented m.kernel) (move : m.Step a m') :
    (Lossless m a m' ↔ Keeps m a) ∧ Parented m'.kernel := by
  obtain ⟨fuel, run⟩ := move
  cases a with
  | syscallReturn regs =>
    cases run
    rw [Machine.syscallReturn]
    split
    · exact ⟨⟨fun _ => trivial, fun _ => lossless_same _ rfl⟩, parented⟩
    split
    · exact ⟨⟨fun _ => trivial, fun _ => lossless_same _ rfl⟩, parented⟩
    rename_i cur _ _
    refine ⟨⟨fun _ => trivial, fun _ => deliver_lossless m cur regs⟩, ?_⟩
    rw [Machine.deliverPendingSignal]
    split
    · exact parented
    dsimp only
    refine (Looked.own m.kernel cur ?_).parented parented
    exact fun _ => ⟨rfl, rfl⟩
  | signal pid sig =>
    exact gentle_step run (by simp) trivial
      (fun _ sent => (taskSignalLocked_gentle sent).1) parented
  | tickAccounting => exact gentle_step run (by simp) trivial (fun _ => .tickAccounting) parented
  | timerWheelTick => exact gentle_step run (by simp) trivial (fun _ => .timerWheelTick) parented
  | checkAlarmTimers =>
    exact gentle_step run (by simp) trivial (fun _ => .checkAlarmTimers) parented
  | schedule => exact gentle_step run (by simp) trivial (fun _ => .schedule) parented
  | sigprocmask how set =>
    refine gentle_step run (by simp) trivial (fun kernel masked => ?_) parented
    obtain ⟨cur, -, rfl⟩ := map_eq_some_iff.mp masked
    exact sigprocmask_gentle _ cur how set
  | sigaction signum handler =>
    obtain ⟨kernel, installed, rfl⟩ := map_eq_some_iff.mp run
    obtain ⟨cur, -, rfl⟩ := map_eq_some_iff.mp installed
    obtain ⟨harmless, kept⟩ := sigaction_harmless m.kernel cur signum handler
    refine ⟨?_, kept parented⟩
    rw [lossless_iff (by simp)]
    exact ⟨fun _ => trivial, fun _ => harmless⟩
  | handleSignals =>
    obtain ⟨kernel, handled, rfl⟩ := map_eq_some_iff.mp run
    change handleCurrentSignals fuel m.kernel = some kernel at handled
    rw [lossless_iff (by simp), Keeps]
    rw [handleCurrentSignals] at handled
    cases current : m.kernel.currentTask with
    | none =>
      rw [current] at handled
      cases handled
      refine ⟨⟨fun _ t same => ?_, fun _ => (Gentle.refl _).harmless⟩, parented⟩
      cases same
    | some t =>
      rw [current] at handled
      obtain ⟨iff, kept⟩ := handle_iff parented handled
      refine ⟨?_, kept⟩
      rw [iff]
      constructor
      · intro careful u same
        exact some.inj same ▸ careful
      · exact fun careful => careful t rfl

/-- The law at every step of a run. -/
def LosslessRun : Machine → List SigAction → Prop
  | _, [] => True
  | m, a :: rest => ∀ m', m.Step a m' → Lossless m a m' ∧ LosslessRun m' rest

def KeepsRun : Machine → List SigAction → Prop
  | _, [] => True
  | m, a :: rest => ∀ m', m.Step a m' → Keeps m a ∧ KeepsRun m' rest

/-- From every state of the processes, the steps of a run lose no caught signal and end or stop
no process for an ignored one exactly when `task_handle_signals` never meets a caught signal
that it would take, nor an ignored one that ends the process. -/
theorem signals_lossless_iff : ∀ {actions : List SigAction} {m : Machine}, Parented m.kernel →
    (LosslessRun m actions ↔ KeepsRun m actions) := by
  intro actions
  induction actions with
  | nil => exact fun _ => Iff.rfl
  | cons a rest ih =>
    intro m parented
    constructor
    · intro run m' move
      obtain ⟨iff, kept⟩ := step_iff parented move
      obtain ⟨lossless, later⟩ := run m' move
      exact ⟨iff.mp lossless, (ih kept).mp later⟩
    · intro run m' move
      obtain ⟨iff, kept⟩ := step_iff parented move
      obtain ⟨keeps, later⟩ := run m' move
      exact ⟨iff.mpr keeps, (ih kept).mpr later⟩

/-! ## A caught and an ignored signal -/

/-- A process that is switched to, installs a handler and gets the signal. -/
def signalled (signum handler : Nat) : List Action :=
  [.createUserTask 1 1, .schedule, .sigaction signum handler, .signal 1 (twoPow 32 signum)]

/-- A page that is mapped for the user everywhere. -/
def Machine.onto (kernel : Kernel) : Machine :=
  ⟨kernel, fun _ => 0x08060000, fun _ => some 0, fun _ _ => 7,
    fun _ => ⟨0, 0, 0, 0, 0, 0, 0, 0x08048000, 0, 0x08051000⟩, fun _ _ => 0⟩

/-- `SIGTERM` is caught, and yet the next round of `task_handle_signals` takes it; `SIGINT` is
ignored, and it ends the process. -/
theorem handled_signals_lost :
    (∃ s m', Reach Initial Step s ∧ (Machine.onto s).Step .handleSignals m' ∧
      userHandled (s.procMeta 1) 1 = true ∧ pends (s.procMeta 1) 1 = true ∧
      pends (m'.kernel.procMeta 1) 1 = false ∧ ¬ Lossless (.onto s) .handleSignals m') ∧
    (∃ s m', Reach Initial Step s ∧ (Machine.onto s).Step .handleSignals m' ∧
      (s.metaOf 1).signalHandlers 11 = sigIgn ∧ (s.metaOf 1).pendingSignals = sigInt ∧
      m'.kernel.state 1 = .zombie ∧ ¬ Lossless (.onto s) .handleSignals m') := by
  constructor
  · have reached : Reach Initial Step _ := .of_foldlM (fun _ _ _ move => ⟨8, move⟩)
      (signalled 1 0x08048000) (.start ⟨0, rfl⟩) rfl
    refine ⟨_, _, reached, ⟨8, rfl⟩, rfl, rfl, rfl, ?_⟩
    intro lossless
    obtain ⟨regs, -, same, -⟩ := lossless.kept 1 1 rfl rfl rfl
    cases same
  · have reached : Reach Initial Step _ := .of_foldlM (fun _ _ _ move => ⟨8, move⟩)
      (signalled 11 1) (.start ⟨0, rfl⟩) rfl
    refine ⟨_, _, reached, ⟨8, rfl⟩, rfl, rfl, rfl, ?_⟩
    intro lossless
    have only : ∀ bit, sigInt.getLsbD bit = true → bit = 11 := by
      intro bit there
      have all : ∀ bit < 32, sigInt.getLsbD bit = true → bit = 11 := by decide
      exact all bit (BitVec.lt_of_getLsbD there) there
    obtain ⟨bit, ⟨uncaught, there⟩ | ⟨⟨⟨-, open_, -⟩, -⟩, default⟩⟩ := lossless.ended 1 nofun rfl
    · obtain rfl := only bit there
      cases uncaught
    · obtain rfl := only bit (unblocked_pends open_)
      cases default

/-- One process, with a handler for every signal and `SIGCHLD` pending. -/
def catchesAll : Kernel :=
  { initScheduler 1 with
    isKernel := fun _ => false
    proc := fun t => t
    procMeta := fun _ => { signalHandlers := fun _ => 0x08048000, pendingSignals := sigChld } }

/-- A round of `task_handle_signals` and the return of a system call. -/
def childRun : List SigAction :=
  [.handleSignals, .syscallReturn ⟨0, 0, 0, 0, 0, 0, 0, 0x08048000, 0, 0x08051000⟩]

/-- The caught `SIGCHLD` is left pending by the round and delivered by the return. -/
theorem signals_lossless_iff_child :
    KeepsRun (.onto catchesAll) childRun ∧ LosslessRun (.onto catchesAll) childRun := by
  have parented : Parented (Machine.onto catchesAll).kernel := by
    intro t u parent
    exact absurd rfl parent
  have only : ∀ bit, unblocked (catchesAll.metaOf 1) bit = true → bit = 6 := by
    intro bit open_
    have all : ∀ bit < 32, sigChld.getLsbD bit = true → bit = 6 := by decide
    have there : sigChld.getLsbD bit = true := unblocked_pends open_
    exact all bit (BitVec.lt_of_getLsbD there) there
  have careful : Careful catchesAll 1 := by
    refine inr (inr ?_)
    rw [if_neg (by decide), if_neg (by decide)]
    refine inr ⟨?_, ?_⟩
    · intro bit _ open_ plain
      rw [only bit open_] at plain
      cases plain
    · rintro bit ⟨⟨term, open_, -⟩, -⟩
      rw [only bit open_] at term
      cases term
  have keeps : KeepsRun (.onto catchesAll) childRun := by
    refine fun _ _ => ⟨?_, fun _ _ => ⟨trivial, trivial⟩⟩
    intro t current
    cases current
    exact careful
  exact ⟨keeps, (signals_lossless_iff parented).mpr keeps⟩

end CactKernel.Sched
