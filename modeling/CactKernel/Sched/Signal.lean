import CactKernel.Sched.Mlfq

/-! # Signals and timers

Signal delivery (`task_signal.rs`), the alarm walk over the task list, the
signal-related control calls of procfs, and the timer wheel. -/

set_option autoImplicit false

namespace CactKernel.Sched

open Lib

def sigKill : BitVec 32 := 1 <<< 0
def sigTerm : BitVec 32 := 1 <<< 1
def sigStop : BitVec 32 := 1 <<< 2
def sigCont : BitVec 32 := 1 <<< 3
def sigAlrm : BitVec 32 := 1 <<< 5
def sigChld : BitVec 32 := 1 <<< 6
def sigFpe : BitVec 32 := 1 <<< 7
def sigSegv : BitVec 32 := 1 <<< 8
def sigWinch : BitVec 32 := 1 <<< 9
def sigHup : BitVec 32 := 1 <<< 10
def sigInt : BitVec 32 := 1 <<< 11
def sigQuit : BitVec 32 := 1 <<< 12
def sigUncatchable : BitVec 32 := sigKill ||| sigStop
def nsig : Nat := 13
def sigDfl : Nat := 0
def sigIgn : Nat := 1
def kernelBase : Nat := 0xC0000000

/-! ## Delivery -/

/-- Unlinking a sleeper and making it ready. -/
def wakeSleeper (fuel : Nat) (s : Kernel) (t : Tid) : Option Kernel := do
  let s ← mlfqRemoveFromSleep fuel s t
  some (makeReady s t)

/-- A task suspended in `sigsuspend` that the signal gets through to. -/
def suspendedFor (s : Kernel) (t : Tid) (signal : BitVec 32) : Bool :=
  (s.metaOf t).inSigsuspend && s.state t = .sleeping && (signal &&& ~~~(s.metaOf t).signalMask) ≠ 0

def taskSignalLocked (fuel : Nat) (s : Kernel) (pid : Nat) (signal : BitVec 32) :
    Option Kernel :=
  if s.taskListHead = none ∨ pid = 0 then some s
  else do
    match ← findTaskByPid fuel s pid with
    | none => some s
    | some t =>
      let s := s.updateMeta t fun m => { m with pendingSignals := m.pendingSignals ||| signal }
      if signal &&& (sigKill ||| sigStop) ≠ 0 then
        match s.state t with
        | .sleeping => wakeSleeper fuel s t
        | .waiting => some (makeReady s t)
        | _ => some s
      else if suspendedFor s t signal then wakeSleeper fuel s t
      else some s

def handleSignalBit (fuel : Nat) (t : Tid) (deliverable sig : BitVec 32) (handlerIdx : Nat)
    (termByDefault : Bool) (s : Kernel) : Option Kernel :=
  if deliverable &&& sig = 0 then some s
  else if s.state t = .zombie then some s
  else
    let s := s.updateMeta t fun m => { m with pendingSignals := m.pendingSignals &&& ~~~sig }
    let handler := (s.metaOf t).signalHandlers handlerIdx
    if sig = sigCont then
      if s.state t = .sleeping then some (s.setState t .ready) else some s
    else if sig = sigChld ∨ sig = sigWinch then
      if handler ≠ sigDfl ∧ handler ≠ sigIgn then
        some (s.updateMeta t fun m => { m with pendingSignals := m.pendingSignals ||| sig })
      else some s
    else if termByDefault ∧ (handler = sigDfl ∨ handler = sigIgn) then do
      let s ← taskSignalLocked fuel s (s.metaOf t).parentPid sigChld
      some (s.setState t .zombie)
    else some s

/-- The signals in the order `task_handle_signals` looks at them. -/
def signalTable : List (BitVec 32 × Nat × Bool) :=
  [(sigTerm, 1, true), (sigCont, 3, false), (sigAlrm, 5, true), (sigChld, 6, false),
    (sigFpe, 7, true), (sigSegv, 8, true), (sigWinch, 9, false), (sigHup, 10, true),
    (sigInt, 11, true), (sigQuit, 12, true)]

def handleSignalBits (fuel : Nat) (t : Tid) (deliverable : BitVec 32) (s : Kernel) :
    Option Kernel :=
  signalTable.foldlM (fun s e => handleSignalBit fuel t deliverable e.1 e.2.1 e.2.2 s) s

/-- `sigsuspend` ends when signals are looked at: its mask is put back. -/
def endSigsuspend (m : ProcMeta) : ProcMeta :=
  if m.inSigsuspend then { m with signalMask := m.savedSignalMask, inSigsuspend := false } else m

def taskHandleSignals (fuel : Nat) (s : Kernel) (t : Tid) : Option Kernel :=
  if s.proc t = 0 then some s
  else if (s.metaOf t).pendingSignals = 0 then some s
  else
    let s := s.updateMeta t endSigsuspend
    if (s.metaOf t).pendingSignals &&& sigKill ≠ 0 then do
      let s := s.updateMeta t fun m => { m with pendingSignals := 0 }
      let s ← taskSignalLocked fuel s (s.metaOf t).parentPid sigChld
      some (s.setState t .zombie)
    else if (s.metaOf t).pendingSignals &&& sigStop ≠ 0 then
      let s := s.updateMeta t fun m => { m with pendingSignals := m.pendingSignals &&& ~~~sigStop }
      some (s.setState t .sleeping)
    else
      let deliverable := (s.metaOf t).pendingSignals &&& ~~~(s.metaOf t).signalMask
      if deliverable = 0 then some s else handleSignalBits fuel t deliverable s

/-! ## Control calls -/

def taskSigaction (s : Kernel) (t : Tid) (signum handler : Nat) : Kernel :=
  if s.proc t = 0 ∨ nsig ≤ signum ∨ signum = 0 then s
  else if handler ≠ sigDfl ∧ handler ≠ sigIgn ∧ kernelBase ≤ handler then s
  else if (1 <<< signum : BitVec 32) &&& sigUncatchable ≠ 0 then s
  else s.updateMeta t fun m =>
    { m with signalHandlers := Function.update m.signalHandlers signum handler }

/-- `CACT_PROCCTL_SIGPROCMASK` for the current task. -/
def procctlSigprocmask (s : Kernel) (t : Tid) (how : Nat) (set : BitVec 32) : Kernel :=
  match how with
  | 0 => s.updateMeta t fun m => { m with signalMask := m.signalMask ||| set }
  | 1 => s.updateMeta t fun m => { m with signalMask := m.signalMask &&& ~~~set }
  | 2 => s.updateMeta t fun m => { m with signalMask := set }
  | _ => s

/-- `CACT_PROCCTL_SIGSUSPEND` up to its call of `schedule`. -/
def procctlSigsuspend (s : Kernel) (t : Tid) (sigmask : BitVec 32) : Kernel :=
  if s.isKernel t then s
  else
    let s := s.updateMeta t fun m =>
      { m with
        savedSignalMask := m.signalMask
        signalMask := sigmask &&& ~~~sigUncatchable
        inSigsuspend := true }
    s.setState t .sleeping

/-- `CACT_PROCCTL_ALARM` at the clock reading `now`. -/
def procctlAlarm (s : Kernel) (t : Tid) (now seconds : Nat) : Kernel :=
  s.updateMeta t fun m =>
    { m with alarmTicks := if seconds = 0 then 0 else (now + seconds * 100) % 2 ^ 32 }

/-- `CACT_PROCCTL_SETITIMER` at the clock reading `now`. -/
def procctlSetitimer (s : Kernel) (t : Tid) (now valueMs intervalMs : Nat) : Kernel :=
  let valTicks := (valueMs + 9) % 2 ^ 32 / 10
  let intTicks := (intervalMs + 9) % 2 ^ 32 / 10
  s.updateMeta t fun m =>
    if valTicks = 0 then { m with itimerValue := 0, itimerInterval := 0 }
    else { m with itimerValue := wrappingAdd now valTicks, itimerInterval := intTicks }

/-! ## Alarms -/

def wakeIfSigsuspend (fuel : Nat) (s : Kernel) (t : Tid) (signal : BitVec 32) : Option Kernel :=
  if suspendedFor s t signal then wakeSleeper fuel s t else some s

def checkAlarm (fuel now : Nat) (cur : Tid) (s : Kernel) : Option Kernel :=
  let deadline := (s.metaOf cur).alarmTicks
  if deadline ≠ 0 ∧ deadline ≤ now then
    let s := s.updateMeta cur fun m =>
      { m with alarmTicks := 0, pendingSignals := m.pendingSignals ||| sigAlrm }
    wakeIfSigsuspend fuel s cur sigAlrm
  else some s

/-- The next deadline of an interval timer, `0` if it does not repeat; on overflow the kernel
stops. -/
def nextItimer (now interval : Nat) : Option Nat :=
  if interval ≠ 0 then checkedAdd now interval else some 0

def checkItimer (fuel now : Nat) (cur : Tid) (s : Kernel) : Option Kernel :=
  let deadline := (s.metaOf cur).itimerValue
  if deadline ≠ 0 ∧ deadline ≤ now then do
    let value ← nextItimer now (s.metaOf cur).itimerInterval
    let s := s.updateMeta cur fun m =>
      { m with pendingSignals := m.pendingSignals ||| sigAlrm, itimerValue := value }
    wakeIfSigsuspend fuel s cur sigAlrm
  else some s

def checkAlarmBody (fuel now : Nat) (cur : Tid) (s : Kernel) : Option (Option Tid × Kernel) :=
  let next := s.next cur
  if s.proc cur = 0 then some (next, s)
  else do
    let s ← checkAlarm fuel now cur s
    let s ← checkItimer fuel now cur s
    some (next, s)

def checkAlarmTimers (fuel : Nat) (s : Kernel) : Option Kernel :=
  walk (checkAlarmBody fuel s.currentTick) fuel s.taskListHead s

/-! ## The timer wheel -/

def slotPush (s : Kernel) (i : Nat) (t : Tid) : Kernel :=
  let slot := s.slots i
  let s := if s.proc t = 0 then s else s.updateMeta t fun m => { m with waitNext := slot.head }
  s.setSlot i ⟨some t, slot.count + 1⟩

def timerWheelBody (now : Nat) (cur : Tid) (s : Kernel) : Option (Option Tid × Kernel) :=
  let next := (s.metaOf cur).waitNext
  let s := s.updateMeta cur fun m => { m with waitNext := none }
  if (s.metaOf cur).sleepUntil ≤ now then
    if s.state cur = .sleeping then
      let s := s.updateMeta cur fun m => { m with sleepUntil := 0 }
      some (next, makeReady s cur)
    else some (next, s)
  else some (next, slotPush s ((s.metaOf cur).sleepUntil % wheelSize) cur)

def timerWheelTick (fuel : Nat) (s : Kernel) : Option Kernel :=
  let now := wrappingAdd s.currentTick 1
  let i := now % wheelSize
  let drained := { s with currentTick := now }.setSlot i ⟨none, 0⟩
  walk (timerWheelBody now) fuel (s.slots i).head drained

/-- `sched_sleep_ticks` up to its call of `schedule`. -/
def schedSleepTicks (s : Kernel) (ticks : Nat) : Kernel :=
  match s.currentTask with
  | none => s
  | some cur =>
    if s.proc cur = 0 then s
    else
      let deadline := wrappingAdd s.currentTick ticks
      let s := (s.setState cur .sleeping).updateMeta cur fun m => { m with sleepUntil := deadline }
      slotPush s (deadline % wheelSize) cur

end CactKernel.Sched
