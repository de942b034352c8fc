import CactKernel.Sched.Lossless

/-! # The way back from a signal handler

`deliver_pending_signal` leaves the interrupted registers in a frame on the user's stack. The
handler returns into the trampoline, which undoes the `ret` and calls `sys_sigreturn`
(`signal.c`); the kernel reads the frame through its own mapping of physical memory.

The page tables stay as they are while the call runs, so the second look at the entry agrees
with the first. -/

set_option autoImplicit false

namespace CactKernel.Sched

open Lib Option Function Nat

/-- Physical memory: the words of the page frame at an address, by their offsets. -/
abbrev Frames := BitVec 32 → Nat → Nat

/-- The registers that the words of a `signal_frame_t` stand for. -/
def restore (word : Nat → Nat) : SyscallFrame where
  eax := word 2
  ecx := word 3
  edx := word 4
  ebx := word 5
  useresp := word 6
  ebp := word 7
  esi := word 8
  edi := word 9
  eip := word 10
  eflags := word 11

/-- The words at the user's stack pointer, in the page behind it. -/
def Frames.words (frames : Frames) (page : BitVec 32) (userEsp : Nat) : Nat → Nat :=
  fun i => frames page (userEsp % pageSize + 4 * i)

namespace Machine

/-- The page frame behind the stack pointer, after the checks of `sys_sigreturn_impl`. -/
def signalPage (m : Machine) (t : Tid) (userEsp : Nat) : Option (BitVec 32) :=
  if userEsp < userSpaceStart ∨ kernelBase ≤ userEsp then none
  else if pageSize < userEsp % pageSize + sizeofSignalFrame then none
  else
    (m.pageDirectory t).bind fun pd =>
      let pde := m.tables pd (pdIndex userEsp)
      let pte := m.tables (pde &&& ~~~0xFFF) (ptIndex userEsp)
      if pde &&& pagePresent = 0 then none
      else if pte &&& pagePresent = 0 then none
      else some (pte &&& ~~~0xFFF)

def sysSigreturn (m : Machine) (frames : Frames) (regs : SyscallFrame) : Option SyscallFrame :=
  m.kernel.currentTask.bind fun cur =>
    if m.kernel.isKernel cur then none
    else (m.signalPage cur regs.useresp).map fun page => restore (frames.words page regs.useresp)

/-- `syscall_handler` for `SYS_SIGRETURN`: it stores the call's result in EAX. -/
def sigreturn (m : Machine) (frames : Frames) (regs : SyscallFrame) : Machine :=
  m.syscallReturn (match m.sysSigreturn frames regs with
    | none => { regs with eax := 2 ^ 32 - 1 }
    | some restored => { restored with eax := 0 })

end Machine

structure UserRegs extends SyscallFrame where
  cs : Nat
  ss : Nat
deriving DecidableEq

/-- The end of the entry stubs. `iretd` loads the frame, whose selectors are those that the
entry has stored; `popfd` does not load VM, and `sysexit` sets the selectors itself and uses up
ECX and EDX. -/
def leave (sysexit : Bool) (regs : SyscallFrame) : UserRegs :=
  if sysexit then
    ⟨{ regs with
      ecx := regs.useresp
      edx := regs.eip
      eflags := regs.eflags ^^^ (regs.eflags &&& 2 ^ 17) }, 0x1B, 0x23⟩
  else ⟨regs, 0x1B, 0x23⟩

variable {m m' : Machine} {t : Tid} {regs entry : SyscallFrame} {frames : Frames}

/-! ## Round trip -/

/-- The handler has returned: the stack pointer is back at the frame, the page is there and the
saved registers are what they were when the frame was set up. -/
structure HandlerDone (m m' : Machine) (t : Tid) (frames : Frames) (entry : SyscallFrame) :
    Prop where
  running : m'.kernel.currentTask = some t
  user : m'.kernel.isKernel t = false
  esp : entry.useresp = (m.regs t).useresp
  saved : ∃ page, m'.signalPage t entry.useresp = some page ∧ ∀ i, 2 ≤ i → i < 12 →
    frames.words page entry.useresp i = m.user t (entry.useresp + 4 * i)

theorem restore_congr {word word' : Nat → Nat} (same : ∀ i, 2 ≤ i → i < 12 → word i = word' i) :
    restore word = restore word' := by
  simp (disch := omega) only [restore, same]

theorem restore_signalFrame (mem : Nat → Nat) (addr retAddr signum : Nat) (regs : SyscallFrame) :
    restore (fun i => writeWords mem addr (signalFrame retAddr signum regs) (addr + 4 * i)) =
      regs := by
  cases regs
  simp only [restore, SyscallFrame.mk.injEq]
  refine ⟨?_, ?_, ?_, ?_, ?_, ?_, ?_, ?_, ?_, ?_⟩
  all_goals exact writeWords_get rfl

theorem syscallReturn_eq (running : m.kernel.currentTask = some t)
    (user : m.kernel.isKernel t = false) (regs : SyscallFrame) :
    m.syscallReturn regs = m.deliverPendingSignal t regs := by
  simp [Machine.syscallReturn, running, user]

/-- Another signal may be due, but it leaves EAX alone. -/
theorem deliver_eax (m : Machine) (t : Tid) (regs : SyscallFrame) :
    ((m.deliverPendingSignal t regs).regs t).eax = regs.eax := by
  rw [Machine.deliverPendingSignal]
  split <;> simp

theorem deliver_mask (m : Machine) (t : Tid) (regs : SyscallFrame) :
    ((m.deliverPendingSignal t regs).kernel.metaOf t).signalMask =
      (m.kernel.metaOf t).signalMask := by
  rw [Machine.deliverPendingSignal]
  split <;> simp

theorem leave_eax (sysexit : Bool) (regs : SyscallFrame) :
    (leave sysexit regs).eax = regs.eax := by
  cases sysexit <;> rfl

theorem HandlerDone.restored (running : m.kernel.currentTask = some t)
    (user : m.kernel.isKernel t = false)
    (delivered : ((List.range nsig).find? (m.canDeliver t regs)).isSome = true)
    (done : HandlerDone (m.syscallReturn regs) m' t frames entry) :
    m'.sysSigreturn frames entry = some regs := by
  obtain ⟨bit, delivered⟩ := isSome_iff_exists.mp delivered
  obtain ⟨page, found, saved⟩ := done.saved
  have esp := done.esp
  rw [syscallReturn_eq running user, Machine.deliverPendingSignal, delivered] at saved esp
  simp only [update_self] at saved esp
  simp only [Machine.sysSigreturn, done.running, bind_some, done.user, found, map_some,
    Bool.false_eq_true, if_false, some.injEq, restore_congr saved]
  rw [esp]
  exact restore_signalFrame ..

/-- The interrupted call goes on as if it returned now, but for its result: EAX is zero. -/
theorem sigreturn_resumes_iff (sysexit : Bool) (running : m.kernel.currentTask = some t)
    (user : m.kernel.isKernel t = false)
    (delivered : ((List.range nsig).find? (m.canDeliver t regs)).isSome = true)
    (done : HandlerDone (m.syscallReturn regs) m' t frames entry) :
    (leave sysexit ((m'.sigreturn frames entry).regs t) =
        leave sysexit ((m'.syscallReturn regs).regs t) ∧
      ((m'.sigreturn frames entry).kernel.metaOf t).signalMask =
        (m.kernel.metaOf t).signalMask) ↔
      regs.eax = 0 ∧ (m'.kernel.metaOf t).signalMask = (m.kernel.metaOf t).signalMask := by
  have back : m'.sigreturn frames entry = m'.deliverPendingSignal t { regs with eax := 0 } := by
    rw [Machine.sigreturn, done.restored running user delivered,
      syscallReturn_eq done.running done.user]
  rw [back, syscallReturn_eq done.running done.user, deliver_mask]
  refine and_congr_left' ⟨fun same => ?_, fun zero => ?_⟩
  · have result := congrArg (·.eax) same
    simpa only [leave_eax, deliver_eax] using result.symm
  · rw [show { regs with eax := 0 } = regs by rw [← zero]]

/-- A call that returns `result` in the process of `catchesAll`. -/
def returning (result : Nat) : SyscallFrame :=
  ⟨0, 0, 0, 0, 0, 0, result, 0x08048000, 0x202, 0x08051000⟩

def handling (result : Nat) : Machine := (Machine.onto catchesAll).syscallReturn (returning result)

def trampolined : SyscallFrame := ⟨0, 0, 0, 0, 0, 0, 14, 0x08060000, 0x202, 0x08050fd0⟩

def stackFrames (result : Nat) : Frames := fun _ off => (handling result).user 1 (0x08050000 + off)

theorem handlerDone_handling {result : Nat} (either : result = 0 ∨ result = 5) :
    HandlerDone (handling result) (handling result) 1 (stackFrames result) trampolined := by
  have saved : ∀ i, 2 ≤ i → i < 12 → (stackFrames result).words 0 0x08050fd0 i =
      (handling result).user 1 (0x08050fd0 + 4 * i) :=
    fun i _ _ => congrArg ((handling result).user 1) (by rw [pageSize]; omega)
  obtain rfl | rfl := either
  · exact ⟨rfl, rfl, by decide +kernel, 0, by decide +kernel, saved⟩
  · exact ⟨rfl, rfl, by decide +kernel, 0, by decide +kernel, saved⟩

theorem sigreturn_resumes_zero :
    leave true (((handling 0).sigreturn (stackFrames 0) trampolined).regs 1) =
      leave true (((handling 0).syscallReturn (returning 0)).regs 1) :=
  ((sigreturn_resumes_iff true rfl rfl (by decide +kernel)
    (handlerDone_handling (.inl rfl))).mpr ⟨rfl, rfl⟩).1

/-- A call whose result is 5 is interrupted, and it returns 0. -/
theorem sigreturn_loses_result :
    HandlerDone (handling 5) (handling 5) 1 (stackFrames 5) trampolined ∧
    (((handling 5).syscallReturn (returning 5)).regs 1).eax = 5 ∧
    (((handling 5).sigreturn (stackFrames 5) trampolined).regs 1).eax = 0 :=
  ⟨handlerDone_handling (.inr rfl), by decide +kernel, by decide +kernel⟩

/-! ## Privilege -/

/-- The page can be read in user mode. -/
def Machine.UserPage (m : Machine) (t : Tid) (page : BitVec 32) : Prop :=
  ∃ pd i j, m.pageDirectory t = some pd ∧ i < 1024 ∧ j < 1024 ∧
    let pde := m.tables pd i
    let pte := m.tables (pde &&& ~~~0xFFF) j
    pde &&& pagePresent ≠ 0 ∧ pde &&& pageUser ≠ 0 ∧ pte &&& pagePresent ≠ 0 ∧
      pte &&& pageUser ≠ 0 ∧ pte &&& ~~~0xFFF = page

/-- IF is set, and IOPL and VM are zero. -/
def UserRegs.Unprivileged (regs : UserRegs) : Prop :=
  regs.cs = 0x1B ∧ regs.ss = 0x23 ∧ regs.eflags.testBit 9 = true ∧
    regs.eflags.testBit 12 = false ∧ regs.eflags.testBit 13 = false ∧
    regs.eflags.testBit 17 = false

/-- A successful `sys_sigreturn` gives nothing away. -/
def Machine.Confined (m : Machine) (t : Tid) (frames : Frames) (regs : SyscallFrame)
    (sysexit : Bool) : Prop :=
  ∀ restored, m.sysSigreturn frames regs = some restored →
    (leave sysexit ((m.sigreturn frames regs).regs t)).Unprivileged ∧
    ∀ frames' : Frames, (∀ page, m.UserPage t page → frames' page = frames page) →
      m.sysSigreturn frames' regs = some restored

/-- The flags in the frame are harmless, and the frame lies in a page of the user. -/
def Machine.Harmless (m : Machine) (t : Tid) (frames : Frames) (regs : SyscallFrame)
    (sysexit : Bool) : Prop :=
  ∀ page, m.signalPage t regs.useresp = some page →
    let flags := frames.words page regs.useresp 11
    (flags.testBit 9 = true ∧ flags.testBit 12 = false ∧ flags.testBit 13 = false ∧
      (sysexit = false → flags.testBit 17 = false)) ∧ m.UserPage t page

theorem deliver_eflags (m : Machine) (t : Tid) (regs : SyscallFrame) :
    ((m.deliverPendingSignal t regs).regs t).eflags = regs.eflags := by
  rw [Machine.deliverPendingSignal]
  split <;> simp

theorem leave_unprivileged (sysexit : Bool) (regs : SyscallFrame) :
    (leave sysexit regs).Unprivileged ↔ regs.eflags.testBit 9 = true ∧
      regs.eflags.testBit 12 = false ∧ regs.eflags.testBit 13 = false ∧
      (sysexit = false → regs.eflags.testBit 17 = false) := by
  cases sysexit <;> simp [leave, UserRegs.Unprivileged, -Nat.reducePow]

theorem sysSigreturn_some (running : m.kernel.currentTask = some t)
    (user : m.kernel.isKernel t = false) (frames : Frames) {page : BitVec 32}
    (found : m.signalPage t regs.useresp = some page) :
    m.sysSigreturn frames regs = some (restore (frames.words page regs.useresp)) := by
  simp [Machine.sysSigreturn, running, user, found]

theorem sigreturn_confined_iff (running : m.kernel.currentTask = some t)
    (user : m.kernel.isKernel t = false) (frames : Frames) (regs : SyscallFrame)
    (sysexit : Bool) : m.Confined t frames regs sysexit ↔ m.Harmless t frames regs sysexit := by
  cases found : m.signalPage t regs.useresp with
  | none => simp [Machine.Confined, Machine.Harmless, found, Machine.sysSigreturn, running]
  | some page =>
    have restored := fun frames => sysSigreturn_some running user frames found
    simp only [Machine.Confined, Machine.Harmless, found, restored, some.injEq, forall_eq',
      Machine.sigreturn, syscallReturn_eq running user, leave_unprivileged, deliver_eflags]
    refine and_congr .rfl ⟨fun same => ?_, fun there frames' agree => ?_⟩
    · by_contra hidden
      -- The page is not the user's, so another memory may hold other registers there.
      have other := same (update frames page fun off => frames page off + 1) fun p there =>
        update_of_ne (fun here : p = page => hidden (here ▸ there)) _ _
      have result := congrArg (·.eax) other
      simp [restore, Frames.words] at result
    · exact congrArg restore (funext fun i => congrFun (agree page there) _)

theorem sigreturn_confined_onto :
    Machine.Confined (.onto catchesAll) 1 (fun _ _ => 0x202) (returning 14) false := by
  refine (sigreturn_confined_iff rfl rfl _ _ _).mpr fun page found => ?_
  obtain rfl : 0 = page := some.inj found
  exact ⟨by decide, 0, 0, 0, rfl, by decide⟩

/-- The frame asks for IOPL 3, and the user gets it. -/
theorem sigreturn_raises_iopl :
    ¬ Machine.Confined (.onto catchesAll) 1 (fun _ _ => 0x3202) (returning 14) false := by
  intro confined
  exact absurd (confined _ rfl).1 (by unfold UserRegs.Unprivileged; decide +kernel)

end CactKernel.Sched
