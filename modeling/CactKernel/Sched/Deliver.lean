import CactKernel.Sched.Step

/-! # Two consumers of pending signals

`task_handle_signals` runs when a task is switched to and at the end of a timer tick;
`deliver_pending_signal` (`helper.c`) runs when a system call returns and builds a frame
for a user handler. Both take bits out of `pending_signals`.

The user's memory is seen one word at a time, the registers are those that the system
call's entry has saved. -/

set_option autoImplicit false

namespace CactKernel.Sched

open Lib

def userSpaceStart : Nat := 0x08000000
def pageSize : Nat := 4096
def pagePresent : BitVec 32 := 1
def pageRw : BitVec 32 := 2
def pageUser : BitVec 32 := 4

def pdIndex (vaddr : Nat) : Nat := vaddr / 2 ^ 22 % 1024
def ptIndex (vaddr : Nat) : Nat := vaddr / 2 ^ 12 % 1024

/-- `struct syscall_frame`, as far as a signal frame is made from it. -/
structure SyscallFrame where
  edi : Nat
  esi : Nat
  ebp : Nat
  ebx : Nat
  edx : Nat
  ecx : Nat
  eax : Nat
  eip : Nat
  eflags : Nat
  useresp : Nat
deriving DecidableEq

structure Machine where
  kernel : Kernel
  /-- `sigreturn_trampoline` of the process metadata at an address. -/
  trampoline : Nat → Nat
  pageDirectory : Tid → Option (BitVec 32)
  /-- The entries of the page directory or page table at an address. -/
  tables : BitVec 32 → Nat → BitVec 32
  regs : Tid → SyscallFrame
  user : Tid → Nat → Nat

/-- The words of a `signal_frame_t`. -/
def signalFrame (retAddr signum : Nat) (regs : SyscallFrame) : List Nat :=
  [retAddr, signum, regs.eax, regs.ecx, regs.edx, regs.ebx, regs.useresp, regs.ebp, regs.esi,
    regs.edi, regs.eip, regs.eflags]

def sizeofSignalFrame : Nat := 48

def writeWords (mem : Nat → Nat) (addr : Nat) : List Nat → Nat → Nat
  | [] => mem
  | word :: words => writeWords (Function.update mem addr word) (addr + 4) words

/-- `regs->useresp - sizeof(signal_frame_t)`. -/
def SyscallFrame.newEsp (regs : SyscallFrame) : Nat :=
  (regs.useresp + 2 ^ 32 - sizeofSignalFrame) % 2 ^ 32

namespace Machine

/-- The page is there and the user may write to it. -/
def writable (m : Machine) (t : Tid) (vaddr : Nat) : Bool :=
  match m.pageDirectory t with
  | none => false
  | some pd =>
    let pde := m.tables pd (pdIndex vaddr)
    let pte := m.tables (pde &&& ~~~0xFFF) (ptIndex vaddr)
    pde &&& pagePresent ≠ 0 ∧ pte &&& pagePresent ≠ 0 ∧ pte &&& pageUser ≠ 0 ∧ pte &&& pageRw ≠ 0

/-- No `continue` of the loop is taken for the bit. -/
def canDeliver (m : Machine) (t : Tid) (regs : SyscallFrame) (bit : Nat) : Bool :=
  let p := m.kernel.metaOf t
  let handler := p.signalHandlers bit
  let newEsp := regs.newEsp
  (p.pendingSignals &&& ~~~p.signalMask).getLsbD bit ∧
    sigIgn < handler ∧ userSpaceStart ≤ handler ∧ handler < kernelBase ∧
    userSpaceStart ≤ newEsp ∧ newEsp < kernelBase ∧
    newEsp % pageSize + sizeofSignalFrame ≤ pageSize ∧ m.writable t newEsp

def deliverPendingSignal (m : Machine) (t : Tid) (regs : SyscallFrame) : Machine :=
  match (List.range nsig).find? (m.canDeliver t regs) with
  | none => { m with regs := Function.update m.regs t regs }
  | some bit =>
    let handler := (m.kernel.metaOf t).signalHandlers bit
    let frame := signalFrame (m.trampoline (m.kernel.proc t)) bit regs
    { m with
      user := Function.update m.user t (writeWords (m.user t) regs.newEsp frame)
      regs := Function.update m.regs t { regs with useresp := regs.newEsp, eip := handler }
      kernel := m.kernel.updateMeta t fun p =>
        { p with pendingSignals := p.pendingSignals &&& ~~~(BitVec.twoPow 32 bit) } }

/-- The end of `syscall_handler` for a call that leaves the registers `regs`. -/
def syscallReturn (m : Machine) (regs : SyscallFrame) : Machine :=
  match m.kernel.currentTask with
  | none => m
  | some cur => if m.kernel.isKernel cur then m else m.deliverPendingSignal cur regs

end Machine

/-! ## Runs -/

/-- What can happen to a process between two of its instructions. -/
inductive SigAction
  | signal (pid : Nat) (sig : BitVec 32)
  | tickAccounting
  | timerWheelTick
  | checkAlarmTimers
  | handleSignals
  | schedule
  | sigaction (signum handler : Nat)
  | sigprocmask (how : Nat) (set : BitVec 32)
  | syscallReturn (regs : SyscallFrame)

/-- The section of the scheduler that runs, if it is one. -/
def SigAction.section_ : SigAction → Option Action
  | .signal pid sig => some (.signal pid sig)
  | .tickAccounting => some .tickAccounting
  | .timerWheelTick => some .timerWheelTick
  | .checkAlarmTimers => some .checkAlarmTimers
  | .handleSignals => some .handleSignals
  | .schedule => some .schedule
  | .sigaction signum handler => some (.sigaction signum handler)
  | .sigprocmask how set => some (.sigprocmask how set)
  | .syscallReturn _ => none

def Machine.step (fuel : Nat) (m : Machine) (a : SigAction) : Option Machine :=
  match a with
  | .syscallReturn regs => some (m.syscallReturn regs)
  | a => a.section_.bind fun section_ =>
    (Sched.step fuel m.kernel section_).map fun kernel => { m with kernel := kernel }

/-! ## The law -/

def pends (p : ProcMeta) (bit : Nat) : Bool := p.pendingSignals.getLsbD bit

/-- `SIGKILL` and `SIGSTOP`. -/
def uncatchable (bit : Nat) : Bool := sigUncatchable.getLsbD bit

/-- The process has installed a handler of its own. -/
def userHandled (p : ProcMeta) (bit : Nat) : Bool :=
  bit < nsig ∧ uncatchable bit = false ∧ p.signalHandlers bit ≠ sigDfl ∧
    p.signalHandlers bit ≠ sigIgn

/-- The signals that end a process which has not caught them. -/
def terminates (bit : Nat) : Bool := (signalTable.any fun e => e.2.1 = bit ∧ e.2.2)

/-- The mask that holds once signals are looked at. -/
def unblocked (p : ProcMeta) (bit : Nat) : Bool :=
  pends p bit && !(endSigsuspend p).signalMask.getLsbD bit

/-- Looking at the signal ends the process. -/
def ends (p : ProcMeta) (bit : Nat) : Prop :=
  terminates bit = true ∧ unblocked p bit = true ∧
    (p.signalHandlers bit = sigDfl ∨ p.signalHandlers bit = sigIgn)

/-- The signal is the one that ends the process: none before it does. -/
def endsFirst (p : ProcMeta) (bit : Nat) : Prop := ends p bit ∧ ∀ earlier < bit, ¬ ends p earlier

/-- A signal that is not ignored is the one that ends or stops the process. -/
def deserved (p : ProcMeta) : Prop :=
  ∃ bit, (uncatchable bit = true ∧ pends p bit = true) ∨
    (endsFirst p bit ∧ p.signalHandlers bit = sigDfl)

/-- The action is the return of a system call of the process, and it goes on in the handler,
with a frame on its stack. -/
def SetsUpFrame (m m' : Machine) (a : SigAction) (p bit : Nat) : Prop :=
  ∃ regs t, a = .syscallReturn regs ∧ m.kernel.proc t = p ∧
    (m'.regs t).eip = (m.kernel.procMeta p).signalHandlers bit ∧
    (m'.regs t).useresp = regs.newEsp ∧
    ∀ i word, (signalFrame (m.trampoline p) bit regs)[i]? = some word →
      m'.user t (regs.newEsp + 4 * i) = word

structure Lossless (m : Machine) (a : SigAction) (m' : Machine) : Prop where
  kept : ∀ p bit, userHandled (m.kernel.procMeta p) bit = true →
    pends (m.kernel.procMeta p) bit = true → pends (m'.kernel.procMeta p) bit = false →
    SetsUpFrame m m' a p bit
  ended : ∀ t, m.kernel.state t ≠ .zombie → m'.kernel.state t = .zombie →
    deserved (m.kernel.metaOf t)
  stopped : ∀ t, m.kernel.state t ≠ .sleeping → m'.kernel.state t = .sleeping →
    deserved (m.kernel.metaOf t)

/-! ## The condition -/

/-- The signals that `task_handle_signals` leaves pending when they are caught, or does not
look at. -/
def spared (bit : Nat) : Bool := bit = 4 ∨ bit = 6 ∨ bit = 9

/-- `SIGKILL` finds no caught signal pending; without it and `SIGSTOP`, no caught signal is
reached before the process ends, but for `SIGCHLD`, `SIGWINCH` and `SIGPIPE`, and the signal that
ends it is not an ignored one. -/
def Careful (s : Kernel) (t : Tid) : Prop :=
  let p := s.metaOf t
  s.proc t = 0 ∨ p.pendingSignals = 0 ∨
    if p.pendingSignals &&& sigKill ≠ 0 then
      ∀ bit, userHandled p bit = true → pends p bit = false
    else if p.pendingSignals &&& sigStop ≠ 0 then True
    else s.state t = .zombie ∨
      ((∀ bit, userHandled p bit = true → unblocked p bit = true → spared bit = false →
          ∃ earlier < bit, ends p earlier) ∧
        ∀ bit, endsFirst p bit → p.signalHandlers bit = sigDfl)

def Keeps (m : Machine) : SigAction → Prop
  | .handleSignals => ∀ t, m.kernel.currentTask = some t → Careful m.kernel t
  | _ => True

/-- No process is its own parent. -/
def Parented (s : Kernel) : Prop :=
  ∀ t u, (s.metaOf t).parentPid ≠ 0 → s.pid u = (s.metaOf t).parentPid → s.proc u ≠ s.proc t

end CactKernel.Sched
