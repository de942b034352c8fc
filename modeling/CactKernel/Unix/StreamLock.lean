import CactKernel.Sync.Layout
import CactKernel.Unix.StreamRuns

/-! # The locks of two connected endpoints

`mutex_t` of `sync.h` ends where the sync crate keeps `recursion_count`, so the count of an
endpoint's lock is the first four bytes of its ring. A section of the stream is two steps
here: the rounds of `mutex_lock`, and what runs under the lock up to the end of
`mutex_unlock`. Any other task may run between them. Sections of one call that follow one
another without a step between them hold their locks together. -/

set_option autoImplicit false

namespace CactKernel.Unix

open Lib Function

example : offsetOf Sync.unixEpT .rx =
    offsetOf Sync.unixEpT .lock + Sync.mutexOff .recursionCount := by decide

inductive Role
  | writer
  | reader
  | control
deriving DecidableEq

def StreamAction.side : StreamAction → Side
  | .write s _ | .check s | .fill s | .read s _ | .poll s | .shutdown s _ | .close s
  | .control s => s

def StreamAction.role : StreamAction → Role
  | .write _ _ | .check _ | .fill _ => .writer
  | .read _ _ | .poll _ => .reader
  | .shutdown _ _ | .close _ | .control _ => .control

/-- `recursion_count`, the lowest byte first. -/
def recursionCount (rx : Ring UInt8 unixBufSize) : Nat :=
  (rx.mem 0).toNat + 2 ^ 8 * (rx.mem 1).toNat + 2 ^ 16 * (rx.mem 2).toNat +
    2 ^ 24 * (rx.mem 3).toNat

def storeCount (rx : Ring UInt8 unixBufSize) (n : Nat) : Ring UInt8 unixBufSize :=
  { rx with mem := fun i => if i < 4 then .ofNat (n / 2 ^ (8 * i)) else rx.mem i }

/-- The locks of the section that an action runs, in the order they are taken. -/
def Session.locks (n : Session) : StreamAction → List Side
  | .write _ _ | .check _ | .read _ _ => []
  | .fill s =>
    match n.writer s with
    | .fill _ _ peer => [peer]
    | _ => []
  | .poll s | .shutdown s _ | .close s => [s]
  | .control s =>
    match n.control s with
    | .noRead peer _ | .noWrite peer => peer.toList
    | .parted peer dead => peer.toList ++ if dead then [s] else []
    | _ => [s]

/-- `lock` is the part of the mutex before `recursion_count`; `held` counts the locks that a
task has taken for the section it is about to run. -/
structure Locked where
  session : Session
  lock : Side → Sync.Mutex
  held : Side → Role → Nat

/-- `lock` is one round of the loop of `mutex_lock`. -/
inductive LockedAction
  | lock (a : StreamAction)
  | run (a : StreamAction)

namespace Locked

def start : Locked where
  session := .start
  lock := fun _ => Sync.mutexInit
  held := fun _ _ => 0

def mutex (x : Locked) (s : Side) : Sync.Mutex :=
  { x.lock s with recursionCount := recursionCount (x.session.ep s).rx }

def setMutex (x : Locked) (s : Side) (m : Sync.Mutex) : Locked :=
  { x with
    session := x.session.setEp s
      { x.session.ep s with rx := storeCount (x.session.ep s).rx m.recursionCount }
    lock := update x.lock s m }

def setHeld (x : Locked) (a : StreamAction) (k : Nat) : Locked :=
  { x with held := update x.held a.side (update (x.held a.side) a.role k) }

/-- The lock that the task of an action has to take next. -/
def wanted (x : Locked) (a : StreamAction) : Option Side :=
  (x.session.locks a)[x.held a.side a.role]?

variable (who : Side → Role → Tid)

/-- A waiter sleeps until an unlock has taken it off the queue. -/
def lockRound (x : Locked) (a : StreamAction) : Option Locked := do
  let s ← x.wanted a
  if (x.session.step a).isNone ∨ who a.side a.role ∈ (x.lock s).waiters then none
  else
    let (outcome, m) ← (x.mutex s).lockSection (some (who a.side a.role))
    let y := x.setMutex s m
    some (if outcome = .acquired then y.setHeld a (x.held a.side a.role + 1) else y)

def unlock (cur : Tid) (x : Locked) (s : Side) : Locked :=
  x.setMutex s ((x.mutex s).unlockSection (some cur)).2

def runSection (x : Locked) (a : StreamAction) : Option Locked :=
  if x.held a.side a.role = (x.session.locks a).length then
    (x.session.step a).map fun n =>
      ((x.session.locks a).foldl (unlock (who a.side a.role)) { x with session := n }).setHeld a 0
  else none

def step (x : Locked) : LockedAction → Option Locked
  | .lock a => x.lockRound who a
  | .run a => x.runSection who a

def Step (x : Locked) (a : LockedAction) (y : Locked) : Prop := x.step who a = some y

end Locked

/-- The cells under the two counts are zero. -/
def Session.Zeroed (n : Session) : Prop := ∀ s, recursionCount (n.ep s).rx = 0

namespace Locked

/-- A lock is called for when it is free, and a section leaves the cells under the counts
zero. -/
def Spares (x : Locked) : LockedAction → Prop
  | .lock a => ∀ s ∈ x.wanted a, (x.lock s).locked = false
  | .run a => ∀ n ∈ x.session.step a, n.Zeroed

structure Quiet (x : Locked) : Prop where
  zeroed : x.session.Zeroed
  alone : ∀ s, (x.lock s).waiters = []
  free : ∀ s, (x.lock s).locked = false → (x.lock s).owner = none

variable {who} {x y : Locked} {s : Side} {a : StreamAction}

theorem storeCount_zero {rx : Ring UInt8 unixBufSize} (zero : recursionCount rx = 0) :
    storeCount rx 0 = rx := by
  have cells : (fun i => if i < 4 then UInt8.ofNat (0 / 2 ^ (8 * i)) else rx.mem i) = rx.mem := by
    funext i
    by_cases low : i < 4
    · have value : (rx.mem i).toNat = 0 := by
        rw [recursionCount] at zero
        rcases (by omega : i = 0 ∨ i = 1 ∨ i = 2 ∨ i = 3) with rfl | rfl | rfl | rfl <;> omega
      rw [if_pos low, Nat.zero_div, ← UInt8.ofNat_toNat (x := rx.mem i), value]
    · rw [if_neg low]
  rw [storeCount, cells]

theorem setMutex_session {m : Sync.Mutex} (zeroed : x.session.Zeroed)
    (count : m.recursionCount = 0) : (x.setMutex s m).session = x.session := by
  rw [setMutex, count, storeCount_zero (zeroed s), Session.setEp, update_eq_self]

theorem Quiet.setMutex (quiet : x.Quiet) {m : Sync.Mutex} (count : m.recursionCount = 0)
    (alone : m.waiters = []) (free : m.locked = false → m.owner = none) :
    (x.setMutex s m).session = x.session ∧ (x.setMutex s m).Quiet := by
  have same := setMutex_session (s := s) quiet.zeroed count
  have locks : ∀ s', (x.setMutex s m).lock s' = m ∨ (x.setMutex s m).lock s' = x.lock s' := by
    intro s'
    change update x.lock s m s' = m ∨ update x.lock s m s' = x.lock s'
    by_cases at_s : s' = s
    · exact .inl (at_s ▸ update_self ..)
    · exact .inr (update_of_ne at_s ..)
  refine ⟨same, same ▸ quiet.zeroed, ?_, ?_⟩ <;> intro s' <;>
    rcases locks s' with new | old
  · rw [new, alone]
  · rw [old, quiet.alone]
  · rw [new]
    exact free
  · rw [old]
    exact quiet.free s'

/-- A free lock is taken at once, and nothing else changes. -/
theorem Quiet.take (quiet : x.Quiet) (free : (x.lock s).locked = false) (cur : Tid) :
    ∃ m, (x.mutex s).lockSection (some cur) = some (.acquired, m) ∧
      (x.setMutex s m).session = x.session ∧ (x.setMutex s m).Quiet := by
  have unowned : (x.mutex s).owner ≠ some cur := by
    change (x.lock s).owner ≠ some cur
    rw [quiet.free s free]
    exact (Option.some_ne_none cur).symm
  have unlocked : (x.mutex s).locked = false := free
  refine ⟨_, by rw [Sync.Mutex.lockSection, if_neg unowned, if_pos unlocked], ?_⟩
  refine quiet.setMutex rfl (show (x.mutex s).waiters = [] from quiet.alone s) ?_
  intro impossible
  cases impossible

theorem Quiet.unlock (quiet : x.Quiet) (cur : Tid) (s : Side) :
    (x.unlock cur s).session = x.session ∧ (x.unlock cur s).Quiet := by
  have count : (x.mutex s).recursionCount = 0 := quiet.zeroed s
  have alone : (x.mutex s).waiters = [] := quiet.alone s
  rw [Locked.unlock, Sync.Mutex.unlockSection]
  by_cases free : (x.mutex s).locked = false
  · rw [if_pos free]
    exact quiet.setMutex count alone (quiet.free s)
  · rw [if_neg free, if_neg (by omega), alone]
    exact quiet.setMutex count rfl fun _ => rfl

theorem Quiet.unlockAll (quiet : x.Quiet) (cur : Tid) (locks : List Side) :
    (locks.foldl (Locked.unlock cur) x).session = x.session ∧
      (locks.foldl (Locked.unlock cur) x).Quiet := by
  induction locks generalizing x with
  | nil => exact ⟨rfl, quiet⟩
  | cons s rest ih =>
    obtain ⟨same, quiet⟩ := quiet.unlock cur s
    obtain ⟨all, quiet⟩ := ih quiet
    exact ⟨all.trans same, quiet⟩

theorem Quiet.setHeld (quiet : x.Quiet) (a : StreamAction) (k : Nat) : (x.setHeld a k).Quiet :=
  ⟨quiet.zeroed, quiet.alone, quiet.free⟩

theorem Quiet.runSection (who : Side → Role → Tid) (quiet : x.Quiet) {n : Session}
    (zeroed : n.Zeroed)
    (move : x.session.step a = some n)
    (holds : x.held a.side a.role = (x.session.locks a).length) :
    ∃ y, x.runSection who a = some y ∧ y.session = n ∧ y.Quiet := by
  have after : ({ x with session := n } : Locked).Quiet := ⟨zeroed, quiet.alone, quiet.free⟩
  obtain ⟨same, done⟩ := after.unlockAll (who a.side a.role) (x.session.locks a)
  refine ⟨Locked.setHeld _ a 0, ?_, same, done.setHeld a 0⟩
  rw [Locked.runSection, if_pos holds, move, Option.map_some]

theorem Quiet.lockRound (quiet : x.Quiet) (spares : x.Spares (.lock a))
    (move : x.lockRound who a = some y) : y.session = x.session ∧ y.Quiet := by
  rw [Locked.lockRound] at move
  obtain ⟨s, wanted, move⟩ := Option.bind_eq_some_iff.mp move
  obtain ⟨m, taken, same, quiet⟩ := quiet.take (spares s wanted) (who a.side a.role)
  split at move
  · cases move
  · rw [taken] at move
    cases move
    exact ⟨same, quiet.setHeld _ _⟩

/-- Under the guard a step is a step of the stream or none. -/
theorem Quiet.step (quiet : x.Quiet) {b : LockedAction} (spares : x.Spares b)
    (move : x.step who b = some y) :
    y.Quiet ∧ (y.session = x.session ∨ ∃ a, Session.Step x.session a y.session) := by
  cases b with
  | lock a =>
    obtain ⟨same, quiet⟩ := quiet.lockRound spares move
    exact ⟨quiet, .inl same⟩
  | run a =>
    change x.runSection who a = some y at move
    have ran := move
    rw [Locked.runSection] at ran
    split at ran
    · rename_i holds
      obtain ⟨n, next, -⟩ := Option.map_eq_some_iff.mp ran
      obtain ⟨y', found, same, quiet⟩ := Quiet.runSection who quiet (spares n next) next holds
      cases move.symm.trans found
      exact ⟨quiet, .inr ⟨a, next.trans (congrArg some same.symm)⟩⟩
    · cases ran

theorem Quiet.run (quiet : x.Quiet) (later : Reach (· = x) (restrict Spares (Step who)) y) :
    y.Quiet ∧ Reach (· = x.session) Session.Step y.session := by
  apply later.invariant fun y => y.Quiet ∧ Reach (· = x.session) Session.Step y.session
  · rintro _ rfl
    exact ⟨quiet, .start rfl⟩
  · rintro y b z ⟨quiet, reached⟩ ⟨spares, move⟩
    obtain ⟨quiet, same | ⟨a, next⟩⟩ := quiet.step spares move
    · exact ⟨quiet, same ▸ reached⟩
    · exact ⟨quiet, reached.next next⟩

theorem start_quiet : start.Quiet := ⟨fun _ => rfl, fun _ => rfl, fun _ _ => rfl⟩

theorem poll_zeroed {n u : Session} (zeroed : n.Zeroed) (move : n.step (.poll s) = some u) :
    u.Zeroed := by
  change n.poll s = some u at move
  rw [Session.poll] at move
  split at move
  · split at move
    · cases move
      exact zeroed
    · split at move
      · cases move
        intro s'
        by_cases at_s : s' = s
        · subst at_s
          change recursionCount (update n.ep s' _ s').rx = 0
          rw [update_self]
          change recursionCount ((n.ep s').rx.pop _).2 = 0
          rw [recursionCount, Ring.mem_pop]
          exact zeroed s'
        · change recursionCount (update n.ep s _ s').rx = 0
          rw [update_of_ne at_s]
          exact zeroed s'
      · split at move <;> cases move <;> exact zeroed
  · cases move

/-- A reader that finds the lock free gets it, and its round is the stream's. -/
theorem Quiet.poll (who : Side → Role → Tid) (quiet : x.Quiet)
    (free : (x.lock s).locked = false) (outside : x.held s .reader = 0) {u : Session}
    (move : x.session.step (.poll s) = some u) :
    ∃ y z, x.step who (.lock (.poll s)) = some y ∧ y.step who (.run (.poll s)) = some z ∧
      z.session = u := by
  obtain ⟨m, taken, same, held⟩ := quiet.take free (who s .reader)
  have wanted : x.wanted (.poll s) = some s := by
    change [s][x.held s .reader]? = some s
    rw [outside]
    rfl
  have awake : ¬ ((x.session.step (.poll s)).isNone ∨ who s .reader ∈ (x.lock s).waiters) := by
    rw [move, quiet.alone s]
    simp
  refine ⟨(x.setMutex s m).setHeld (.poll s) 1, ?_⟩
  obtain ⟨z, ran, ended, -⟩ := Quiet.runSection (a := .poll s) who
    (held.setHeld (.poll s) 1)
    (poll_zeroed quiet.zeroed move) (by rw [← move, ← same]; rfl)
    (by
      change update x.held s (update (x.held s) .reader 1) s .reader = 1
      rw [update_self, update_self])
  refine ⟨z, ?_, ran, ended⟩
  change x.lockRound who (.poll s) = _
  rw [Locked.lockRound, wanted]
  refine (if_neg awake).trans ?_
  change ((x.mutex s).lockSection (some (who s .reader))).bind _ = _
  rw [taken, Option.bind_some]
  change some (Locked.setHeld _ _ (x.held s .reader + 1)) = _
  rw [outside]

/-- The stream of two endpoints whose locks are never contended and whose first four cells hold
only zeros. -/
theorem stream_under_locks (reached : Reach (· = start) (restrict Spares (Step who)) x) (s : Side) :
    x.session.received s.other <+: x.session.accepted s ∧
      x.session.accepted s <+: x.session.handed s ∧
      (x.session.control s = .closed → ∀ y, Reach (· = x) (restrict Spares (Step who)) y →
        (y.session.ep s.other).shutRd = false →
        y.session.accepted s = x.session.accepted s ∧
        (∃ chunks, y.session.reads s.other = x.session.reads s.other ++ chunks ∧
          Drains (x.session.left s) chunks) ∧
        ∀ size, y.session.reader s.other = .waiting size →
          (y.lock s.other).locked = false → y.held s.other .reader = 0 →
          ∃ z u, y.step who (.lock (.poll s.other)) = some z ∧
            z.step who (.run (.poll s.other)) = some u ∧ u.session.reader s.other = .idle ∧
            u.session.reads s.other =
              y.session.reads s.other ++ [(y.session.left s).take size]) := by
  obtain ⟨quiet, stream⟩ := start_quiet.run reached
  obtain ⟨ordered, handed, drains⟩ := Session.stream_semantics stream s
  refine ⟨ordered, handed, fun closed y later listening => ?_⟩
  obtain ⟨quiet, later⟩ := quiet.run later
  obtain ⟨accepted, chunks, poll⟩ := drains closed _ later listening
  refine ⟨accepted, chunks, fun size waiting free outside => ?_⟩
  obtain ⟨u, move, idle, reads⟩ := poll size waiting
  obtain ⟨z, u', taken, ran, same⟩ := Quiet.poll who quiet free outside move
  exact ⟨z, u', taken, ran, same ▸ idle, same ▸ reads⟩

instance (n : Session) : Decidable n.Zeroed :=
  decidable_of_iff
    (recursionCount (n.ep .left).rx = 0 ∧ recursionCount (n.ep .right).rx = 0)
    ⟨fun both s => by cases s; exacts [both.1, both.2], fun all => ⟨all _, all _⟩⟩

instance : ∀ x a, Decidable (Spares x a)
  | x, .lock a => inferInstanceAs (Decidable (∀ s ∈ x.wanted a, (x.lock s).locked = false))
  | x, .run a => inferInstanceAs (Decidable (∀ n ∈ x.session.step a, n.Zeroed))

def processes (s : Side) (_ : Role) : Tid :=
  match s with
  | .left => 1
  | .right => 2

/-- `data` is written on the left, and the left side is closed. -/
def writeAndClose (data : List UInt8) : List LockedAction :=
  [.run (.write .left data), .run (.check .left), .lock (.fill .left), .run (.fill .left),
    .lock (.close .left), .run (.close .left), .lock (.control .left), .run (.control .left),
    .lock (.control .left), .run (.control .left), .lock (.control .left), .run (.control .left)]

/-- Four zeros and two other bytes: five are read, and then the last one. -/
theorem stream_under_locks_zeros :
    ∃ x, Reach (· = start) (restrict Spares (Step processes)) x ∧
      x.session.control .left = .closed ∧ x.session.accepted .left = [0, 0, 0, 0, 7, 8] ∧
      x.session.reads .right = [[0, 0, 0, 0, 7]] ∧
      ∃ z u, x.step processes (.lock (.poll .right)) = some z ∧
        z.step processes (.run (.poll .right)) = some u ∧
        u.session.reads .right = [[0, 0, 0, 0, 7], [8]] := by
  obtain ⟨x, reached, closed, accepted, reads, listening, waiting, free, outside, left⟩ :=
    Reach.exists_of_guarded_run (· = start) (step processes) Spares
      (fun x b y move => show Step processes x b y from move) rfl
      (writeAndClose [0, 0, 0, 0, 7, 8] ++ [.run (.read .right 5), .lock (.poll .right),
        .run (.poll .right), .run (.read .right 5)])
      (fun x => x.session.control .left = .closed ∧
        x.session.accepted .left = [0, 0, 0, 0, 7, 8] ∧
        x.session.reads .right = [[0, 0, 0, 0, 7]] ∧
        (x.session.ep .right).shutRd = false ∧ x.session.reader .right = .waiting 5 ∧
        (x.lock .right).locked = false ∧ x.held .right .reader = 0 ∧
        x.session.left .left = [8])
      (by decide +kernel)
  obtain ⟨-, -, drains⟩ := stream_under_locks reached .left
  obtain ⟨-, -, poll⟩ := drains closed x (.start rfl) listening
  obtain ⟨z, u, taken, ran, -, last⟩ := poll 5 waiting free outside
  refine ⟨x, reached, closed, accepted, reads, z, u, taken, ran, last.trans ?_⟩
  rw [left, show x.session.reads (Side.other .left) = [[0, 0, 0, 0, 7]] from reads]
  rfl

/-- The writer's unlock takes the first bytes for its recursion count: it lowers them by one and
keeps the lock. The left side is closed, and the reader sleeps in `mutex_lock`. -/
theorem written_bytes_keep_lock :
    ∃ x, Reach (· = start) (Step processes) x ∧
      x.session.control .left = .closed ∧ x.session.accepted .left = [1, 2, 3] ∧
      (x.session.ep .right).rx.contents = [0, 2, 3] ∧ (x.lock .right).owner = some 1 ∧
      x.session.reader .right = .waiting 5 ∧ (x.lock .right).waiters = [2] ∧
      (x.step processes (.lock (.poll .right))).isNone ∧
      (x.step processes (.run (.poll .right))).isNone := by
  refine Reach.exists_of_run (· = start) (step processes) (fun _ _ _ move => move) (Eq.refl start)
    (writeAndClose [1, 2, 3] ++ [.run (.read .right 5), .lock (.poll .right)]) _ ?_
  decide +kernel

end Locked

end CactKernel.Unix
