import CactKernel.Lib.Reach

/-! # Waiting for a command of the xHCI controller

`xhci_send_cmd`, `xhci_wait_cmd` and `xhci_process_event` of `xhci_ring.c`, as far as they touch
the flags. An event is processed by the drain of the waiter or by the interrupt, between any two
accesses of the call to the flags. -/

set_option autoImplicit false

namespace CactKernel.Usb

open Lib

structure Event where
  status : BitVec 32
  control : BitVec 32

def Event.type (evt : Event) : BitVec 32 := (evt.control &&& 0xFC00#32) >>> 10

def Event.cc (evt : Event) : BitVec 32 := (evt.status >>> 24) &&& 0xFF#32

structure Flags where
  cmdDone : Bool
  cmdError : Bool
  cmdResult : BitVec 32
  transferDone : Bool

def cmdComplete : BitVec 32 := 33

def transferEvt : BitVec 32 := 32

def ccSuccess : BitVec 32 := 1

def ccShortPacket : BitVec 32 := 13

def processEvent (f : Flags) (evt : Event) : Flags :=
  if evt.type = cmdComplete then
    { f with cmdResult := evt.control, cmdError := evt.cc ≠ ccSuccess, cmdDone := true }
  else if evt.type = transferEvt then
    if evt.cc = ccSuccess ∨ evt.cc = ccShortPacket then
      { f with cmdError := false, transferDone := true }
    else { f with cmdError := true, transferDone := true }
  else f

/-- Where the call is after `cmd_done = 0`: before another store of `xhci_send_cmd`, at one of the
two tests of `xhci_wait_cmd`, or on the way out. -/
inductive Point
  | clearError | clearResult | enqueue
  | loop (loops : Nat) | drained (loops : Nat)
  | clearDone | clearTransfer | readError
  | timedOut | returned (r : Int)

def Point.sent : Point → Bool
  | .clearError | .clearResult | .enqueue => false
  | _ => true

def test (f : Flags) (later : Point) : Point :=
  if f.cmdDone || f.transferDone then .clearDone else later

/-- The next step of the call; `timedOut` is its return of -1 after the last round. -/
def advance (f : Flags) : Point → Option (Flags × Point)
  | .clearError => some ({ f with cmdError := false }, .clearResult)
  | .clearResult => some ({ f with cmdResult := 0 }, .enqueue)
  | .enqueue => some (f, .loop (500 * 100))
  | .loop 0 => some ({ f with cmdDone := false, transferDone := false }, .timedOut)
  | .loop (loops + 1) => some (f, test f (.drained loops))
  | .drained loops => some (f, test f (.loop loops))
  | .clearDone => some ({ f with cmdDone := false }, .clearTransfer)
  | .clearTransfer => some ({ f with transferDone := false }, .readError)
  | .readError => some (f, .returned (if f.cmdError then -1 else 0))
  | .timedOut | .returned _ => none

/-- A call, with the last command completion since its enqueue. -/
structure Call where
  flags : Flags
  point : Point
  completion : Option Event

namespace Call

inductive Action
  | run
  | event (evt : Event)

def seen (s : Call) (evt : Event) : Option Event :=
  if evt.type = cmdComplete ∧ s.point.sent then some evt else s.completion

def step (s : Call) : Action → Option Call
  | .run => (advance s.flags s.point).map fun next => ⟨next.1, next.2, s.completion⟩
  | .event evt =>
    match s.point with
    | .timedOut | .returned _ => none
    | point => some ⟨processEvent s.flags evt, point, s.seen evt⟩

def Step (s : Call) (a : Action) (t : Call) : Prop := s.step a = some t

def begin (f : Flags) : Call := ⟨{ f with cmdDone := false }, .clearError, none⟩

/-- A call that does not time out returns the status of the last command completion since its
enqueue, whose control word is in `cmd_result`. -/
def Right (s : Call) : Prop :=
  ∀ r, s.point = .returned r → ∃ c, s.completion = some c ∧ (r = 0 ↔ c.cc = ccSuccess) ∧
    s.flags.cmdResult = c.control

/-- No command completion comes before the enqueue, and no transfer event before a command
completion or with another status than its own. -/
def Undisturbed (s : Call) : Action → Prop
  | .run => True
  | .event evt => (evt.type = cmdComplete → s.point.sent = true) ∧
    (evt.type = transferEvt → ∃ c, s.completion = some c ∧
      (evt.cc = ccSuccess ∨ evt.cc = ccShortPacket ↔ c.cc = ccSuccess))

/-! ## What the flags say -/

def Quiet (f : Flags) (completion : Option Event) : Prop :=
  completion = none ∧ f.cmdDone = false ∧ f.transferDone = false

def Told (f : Flags) (completion : Option Event) : Prop :=
  ∃ c, completion = some c ∧ (f.cmdError = false ↔ c.cc = ccSuccess) ∧ f.cmdResult = c.control

def Law (s : Call) : Prop :=
  match s.point with
  | .clearError | .clearResult | .enqueue => Quiet s.flags s.completion
  | .loop _ | .drained _ => Quiet s.flags s.completion ∨ Told s.flags s.completion
  | .clearDone | .clearTransfer | .readError => Told s.flags s.completion
  | .timedOut => True
  | .returned _ => s.Right

variable {s t : Call} {f : Flags} {completion : Option Event} {evt : Event}

theorem test_law {later : Point} (law : Quiet f completion ∨ Told f completion)
    (otherwise : Law ⟨f, later, completion⟩) : Law ⟨f, test f later, completion⟩ := by
  unfold test
  split
  · rename_i flag
    rcases law with ⟨-, done, transfer⟩ | told
    · simp [done, transfer] at flag
    · exact told
  · exact otherwise

theorem run_law (law : s.Law) (move : s.Step .run t) : t.Law := by
  obtain ⟨f, point, completion⟩ := s
  obtain ⟨next, advanced, rfl⟩ := Option.map_eq_some_iff.mp move
  cases point with
  | clearError | clearResult | clearDone | clearTransfer =>
    cases advanced
    exact law
  | enqueue =>
    cases advanced
    exact .inl law
  | loop loops =>
    cases loops with
    | zero =>
      cases advanced
      trivial
    | succ loops =>
      cases advanced
      exact test_law law law
  | drained loops =>
    cases advanced
    exact test_law law law
  | readError =>
    cases advanced
    intro r returned
    cases returned
    obtain ⟨c, seen, status, control⟩ := law
    refine ⟨c, seen, ?_, control⟩
    rw [← status]
    cases f.cmdError with
    | false | true => simp
  | timedOut | returned r => cases advanced

theorem seen_of_other (s : Call) (other : evt.type ≠ cmdComplete) : s.seen evt = s.completion :=
  if_neg fun both => other both.1

theorem told_event (fair : s.Undisturbed (.event evt)) (told : Told s.flags s.completion) :
    Told (processEvent s.flags evt) (s.seen evt) := by
  obtain ⟨c, seen, status, control⟩ := told
  unfold processEvent
  split
  · rename_i completes
    exact ⟨evt, if_pos ⟨completes, fair.1 completes⟩, by simp, rfl⟩
  rename_i other
  rw [s.seen_of_other other]
  split
  · rename_i transfer
    obtain ⟨c', seen', same⟩ := fair.2 transfer
    cases seen.symm.trans seen'
    split
    · rename_i good
      exact ⟨c, seen, by simp [← same, good], control⟩
    · rename_i bad
      exact ⟨c, seen, by simp [← same, bad], control⟩
  · exact ⟨c, seen, status, control⟩

theorem quiet_event (fair : s.Undisturbed (.event evt)) (quiet : Quiet s.flags s.completion) :
    Quiet (processEvent s.flags evt) (s.seen evt) ∨
      s.point.sent = true ∧ Told (processEvent s.flags evt) (s.seen evt) := by
  unfold processEvent
  split
  · rename_i completes
    have sent := fair.1 completes
    exact .inr ⟨sent, evt, if_pos ⟨completes, sent⟩, by simp, rfl⟩
  rename_i other
  rw [s.seen_of_other other, if_neg]
  · exact .inl quiet
  · intro transfer
    obtain ⟨c, seen, -⟩ := fair.2 transfer
    cases quiet.1.symm.trans seen

theorem event_law (law : s.Law) (fair : s.Undisturbed (.event evt))
    (move : s.Step (.event evt) t) : t.Law := by
  obtain ⟨f, point, completion⟩ := s
  cases point with
  | clearError | clearResult | enqueue =>
    cases move
    exact (quiet_event fair law).resolve_right nofun
  | loop n | drained n =>
    cases move
    rcases law with quiet | told
    · exact (quiet_event fair quiet).imp id And.right
    · exact .inr (told_event fair told)
  | clearDone | clearTransfer | readError =>
    cases move
    exact told_event fair law
  | timedOut | returned r => cases move

theorem send_cmd_returns_completion (f : Flags) (clear : f.transferDone = false)
    (run : Reach (· = begin f) (restrict Undisturbed Step) s) : s.Right := by
  have law : s.Law := by
    refine Reach.invariant Law ?_ ?_ run
    · rintro _ rfl
      exact ⟨rfl, rfl, clear⟩
    · intro s a t law move
      cases a with
      | run => exact run_law law move.2
      | event evt => exact event_law law move.1 move.2
  intro r returned
  rw [Law, returned] at law
  exact law r returned

/-- The command completes with the control word 0x01008401: slot 1. -/
theorem send_cmd_returns_completion_slot :
    ∃ s, Reach (· = begin ⟨false, false, 0, false⟩) (restrict Undisturbed Step) s ∧
      s.point = .returned 0 ∧ s.flags.cmdResult = 0x01008401 ∧ s.Right := by
  have sent : Reach (· = begin ⟨false, false, 0, false⟩) (restrict Undisturbed Step) _ :=
    .next (a := Action.run) (.next (a := Action.run) (.next (a := Action.run) (.start rfl)
      ⟨trivial, rfl⟩) ⟨trivial, rfl⟩) ⟨trivial, rfl⟩
  have completed := sent.next (a := Action.event ⟨0x01000000, 0x01008401⟩)
    ⟨⟨fun _ => rfl, fun transfer => by cases transfer⟩, rfl⟩
  have tested := completed.next (a := Action.run) ⟨trivial, rfl⟩
  have cleared := (tested.next (a := Action.run) ⟨trivial, rfl⟩).next (a := Action.run)
    ⟨trivial, rfl⟩
  have returned := cleared.next (a := Action.run) ⟨trivial, rfl⟩
  exact ⟨_, returned, rfl, rfl, send_cmd_returns_completion _ rfl returned⟩

/-- A transfer event of a keyboard is all that happens, and the command succeeds. -/
theorem transfer_completes_command :
    ∃ s, Reach (· = begin ⟨false, false, 0, false⟩) Step s ∧ s.point = .returned 0 ∧
      s.completion = none ∧ ¬ s.Right := by
  refine ⟨_, .of_foldlM (fun _ _ _ move => move) [.run, .run, .run,
    .event ⟨0x01000000, 0x01038001⟩, .run, .run, .run, .run] (.start rfl) rfl, rfl, rfl, ?_⟩
  intro right
  obtain ⟨c, seen, -⟩ := right 0 rfl
  cases seen

end Call

end CactKernel.Usb
