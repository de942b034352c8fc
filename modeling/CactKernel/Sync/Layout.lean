import CactKernel.Sync.Object
import CactKernel.Lib.CLayout
import CactKernel.Lib.AccessProgram

/-! # Where the sync crate reads and writes

`mutex_t` and `semaphore_t` are declared three times: in `sync.h` for C, in the
sync crate, whose operations access the object, and a semaphore once more in
`rust_net`. The operations are programs over the crate's own layout on i686;
the objects are as large as their declaration says. -/

set_option autoImplicit false

namespace CactKernel.Sync

open Lib Program

/-! ## Declarations -/

inductive Field
  | locked
  | guard
  | owner
  | count
  | waiters
  | waiterCount
  | recursionCount
  deriving DecidableEq, Repr

def word (name : Field) : Member Field := ⟨name, 4, 4⟩

def slots : Member Field := ⟨.waiters, 4 * mutexWaitQueueMax, 4⟩

/-- `mutex_t` of the sync crate. -/
def rustMutex : List (Member Field) :=
  [word .locked, word .guard, word .owner, slots, word .waiterCount, word .recursionCount]

/-- `semaphore_t` of the sync crate. -/
def rustSemaphore : List (Member Field) :=
  [word .guard, word .count, slots, word .waiterCount]

/-- The declarations that allocate objects. -/
inductive Declaration
  | mutexT
  | semaphoreT
  | netSemaphore
  deriving DecidableEq, Repr

def Declaration.members : Declaration → List (Member Field)
  | .mutexT => [word .locked, word .guard, word .owner, slots, word .waiterCount]
  | .semaphoreT => [word .guard, word .count, slots, word .waiterCount]
  | .netSemaphore => [word .guard, slots, word .waiterCount]

def Declaration.size (d : Declaration) : Nat := structSize d.members

/-! ## Accesses of the spinlock and the waiter array -/

/-- `while self.locked.load() != 0`. -/
def waitFree (off : Nat) : Nat → Program Unit
  | 0 => .stop
  | fuel + 1 => .read off fun v => if v = 0 then .done () else waitFree off fuel

def acquire (off : Nat) : Nat → Program Unit
  | 0 => .stop
  | fuel + 1 => .compareExchange off 0 1 fun ok =>
    if ok then .done () else (waitFree off fuel).bind fun _ => acquire off fuel

def release {α : Type} (off : Nat) (k : Program α) : Program α := .write off 0 k

/-- `waiters[i]`: an index out of range stops the kernel. -/
def readSlot {α : Type} (off i : Nat) (k : Nat → Program α) : Program α :=
  if i < mutexWaitQueueMax then .read (off + 4 * i) k else .stop

def writeSlot {α : Type} (off i v : Nat) (k : Program α) : Program α :=
  if i < mutexWaitQueueMax then .write (off + 4 * i) v k else .stop

def clearSlots (off i : Nat) : Nat → Program Unit
  | 0 => .done ()
  | n + 1 => writeSlot off i 0 (clearSlots off (i + 1) n)

/-- `for i in i..i + n`: every waiter moves up one slot. -/
def shiftSlots (off i : Nat) : Nat → Program Unit
  | 0 => .done ()
  | n + 1 => readSlot off i fun v => writeSlot off (i - 1) v (shiftSlots off (i + 1) n)

def increment {α : Type} (off : Nat) (k : Program α) : Program α :=
  .read off fun v => if v + 1 < 2 ^ 32 then .write off (v + 1) k else .stop

def decrement {α : Type} (off : Nat) (k : Program α) : Program α :=
  .read off fun v => if v = 0 then .stop else .write off (v - 1) k

/-- Takes the first waiter out of the array. -/
def popWaiter {α : Type} (slotsOff countOff : Nat) (k : Nat → Program α) : Program α :=
  readSlot slotsOff 0 fun woken => .read countOff fun count =>
    (shiftSlots slotsOff 1 (count - 1)).bind fun _ => decrement countOff (k woken)

def pushWaiter {α : Type} (slotsOff countOff cur : Nat) (k : Program α) : Program α :=
  .read countOff fun idx => writeSlot slotsOff idx cur (increment countOff k)

/-! ## The operations on a mutex -/

def mutexOff (f : Field) : Nat := offsetOf rustMutex f

def mutexInitProgram : Program Unit :=
  .write (mutexOff .locked) 0 <| .write (mutexOff .guard) 0 <| .write (mutexOff .owner) 0 <|
  .write (mutexOff .waiterCount) 0 <| .write (mutexOff .recursionCount) 0 <|
  clearSlots (mutexOff .waiters) 0 mutexWaitQueueMax

/-- The part that `mutex_lock` and `mutex_trylock` share; `busy` is what follows a held mutex. -/
def takeMutex (cur : Nat) (busy : Program Unit) : Program Unit :=
  .read (mutexOff .owner) fun owner =>
    if owner = cur then
      increment (mutexOff .recursionCount) (release (mutexOff .guard) (.done ()))
    else .read (mutexOff .locked) fun locked =>
      if locked = 0 then
        .write (mutexOff .locked) 1 <| .write (mutexOff .owner) cur <|
        .write (mutexOff .recursionCount) 0 <| release (mutexOff .guard) (.done ())
      else busy

def mutexLockProgram (cur : Nat) : Nat → Program Unit
  | 0 => .stop
  | fuel + 1 => (acquire (mutexOff .guard) fuel).bind fun _ =>
    takeMutex cur <| .read (mutexOff .waiterCount) fun count =>
      if cur ≠ 0 ∧ count < mutexWaitQueueMax then
        pushWaiter (mutexOff .waiters) (mutexOff .waiterCount) cur <|
          release (mutexOff .guard) (mutexLockProgram cur fuel)
      else release (mutexOff .guard) (mutexLockProgram cur fuel)

def mutexTrylockProgram (cur fuel : Nat) : Program Unit :=
  (acquire (mutexOff .guard) fuel).bind fun _ =>
    takeMutex cur (release (mutexOff .guard) (.done ()))

/-- The last unlock: hand-over to the first waiter, or release. -/
def finalUnlock : Program Unit :=
  .read (mutexOff .waiterCount) fun count =>
    if 0 < count then
      popWaiter (mutexOff .waiters) (mutexOff .waiterCount) fun woken =>
        .write (mutexOff .owner) woken (release (mutexOff .guard) (.done ()))
    else .write (mutexOff .locked) 0 <| .write (mutexOff .owner) 0 <|
      release (mutexOff .guard) (.done ())

def mutexUnlockProgram (cur fuel : Nat) : Program Unit :=
  (acquire (mutexOff .guard) fuel).bind fun _ =>
    .read (mutexOff .locked) fun locked =>
      if locked = 0 then release (mutexOff .guard) (.done ())
      else .read (mutexOff .owner) fun owner =>
        if owner = cur then .read (mutexOff .recursionCount) fun depth =>
          if 0 < depth then
            decrement (mutexOff .recursionCount) (release (mutexOff .guard) (.done ()))
          else finalUnlock
        else finalUnlock

/-! ## The operations on a semaphore -/

def semaOff (f : Field) : Nat := offsetOf rustSemaphore f

def positiveI32 (v : Nat) : Bool := 0 < v && v < 2 ^ 31

def semaInitProgram (val : Nat) : Program Unit :=
  .write (semaOff .guard) 0 <| .write (semaOff .count) val <|
  .write (semaOff .waiterCount) 0 <| clearSlots (semaOff .waiters) 0 mutexWaitQueueMax

def downProgram (cur : Nat) : Nat → Program Unit
  | 0 => .stop
  | fuel + 1 => .read (semaOff .count) fun curVal =>
    if positiveI32 curVal then
      .compareExchange (semaOff .count) curVal (curVal - 1) fun ok =>
        if ok then .done () else downProgram cur fuel
    else (acquire (semaOff .guard) fuel).bind fun _ =>
      .read (semaOff .count) fun count =>
        if positiveI32 count then release (semaOff .guard) (downProgram cur fuel)
        else .read (semaOff .waiterCount) fun waiting =>
          if cur ≠ 0 ∧ waiting < mutexWaitQueueMax then
            pushWaiter (semaOff .waiters) (semaOff .waiterCount) cur <|
              release (semaOff .guard) (downProgram cur fuel)
          else release (semaOff .guard) (downProgram cur fuel)

def upProgram (fuel : Nat) : Program Unit :=
  (acquire (semaOff .guard) fuel).bind fun _ =>
    .read (semaOff .waiterCount) fun count =>
      if 0 < count then
        popWaiter (semaOff .waiters) (semaOff .waiterCount) fun _ =>
          release (semaOff .guard) (.done ())
      else .fetchAdd (semaOff .count) 1 (release (semaOff .guard) (.done ()))

/-! ## Bounds of the accesses -/

section Bounds

variable {α : Type} {size off slotsOff countOff i v n fuel cur : Nat}

theorem waitFree_within (room : off + 4 ≤ size) : (waitFree off fuel).Within size := by
  induction fuel with
  | zero => trivial
  | succ fuel ih =>
    refine ⟨room, fun v => ?_⟩
    beta_reduce
    split
    · trivial
    · exact ih

theorem acquire_within (room : off + 4 ≤ size) : (acquire off fuel).Within size := by
  induction fuel with
  | zero => trivial
  | succ fuel ih =>
    refine ⟨room, fun ok => ?_⟩
    cases ok with
    | true => trivial
    | false => exact Within.bind (fun _ => ih) (waitFree_within room)

variable {k : Program α}

theorem release_within (room : off + 4 ≤ size) (rest : k.Within size) :
    (release off k).Within size :=
  ⟨room, rest⟩

section

variable (room : off + 4 * mutexWaitQueueMax ≤ size)

include room

theorem readSlot_within {k : Nat → Program α}
    (rest : ∀ v, (k v).Within size) : (readSlot off i k).Within size := by
  unfold readSlot
  split
  · rename_i small
    exact ⟨by omega, rest⟩
  · trivial

theorem writeSlot_within (rest : k.Within size) : (writeSlot off i v k).Within size := by
  unfold writeSlot
  split
  · rename_i small
    exact ⟨by omega, rest⟩
  · trivial

theorem clearSlots_within :
    (clearSlots off i n).Within size := by
  induction n generalizing i with
  | zero => trivial
  | succ n ih => exact writeSlot_within room ih

theorem shiftSlots_within :
    (shiftSlots off i n).Within size := by
  induction n generalizing i with
  | zero => trivial
  | succ n ih => exact readSlot_within room fun v => writeSlot_within room ih

end

theorem increment_within (room : off + 4 ≤ size) (rest : k.Within size) :
    (increment off k).Within size := by
  refine ⟨room, fun v => ?_⟩
  beta_reduce
  split
  · exact ⟨room, rest⟩
  · trivial

theorem decrement_within (room : off + 4 ≤ size) (rest : k.Within size) :
    (decrement off k).Within size := by
  refine ⟨room, fun v => ?_⟩
  beta_reduce
  split
  · trivial
  · exact ⟨room, rest⟩

theorem popWaiter_within {k : Nat → Program α} (slotRoom : slotsOff + 4 * mutexWaitQueueMax ≤ size)
    (countRoom : countOff + 4 ≤ size) (rest : ∀ v, (k v).Within size) :
    (popWaiter slotsOff countOff k).Within size := by
  apply readSlot_within slotRoom
  intro woken
  refine ⟨countRoom, fun count => ?_⟩
  apply Within.bind _ (shiftSlots_within slotRoom)
  intro _
  exact decrement_within countRoom (rest woken)

theorem pushWaiter_within (slotRoom : slotsOff + 4 * mutexWaitQueueMax ≤ size)
    (countRoom : countOff + 4 ≤ size) (rest : k.Within size) :
    (pushWaiter slotsOff countOff cur k).Within size :=
  ⟨countRoom, fun _ => writeSlot_within slotRoom (increment_within countRoom rest)⟩

end Bounds

theorem semaOff_word {f : Field} (declared : word f ∈ rustSemaphore) :
    semaOff f + 4 ≤ structSize rustSemaphore := by
  apply offsetOf_le_structSize (m := word f) (by decide) _ declared
  cases f with
  | waiters => exact absurd declared (by decide)
  | _ => decide

theorem semaOff_slots : semaOff .waiters + 4 * mutexWaitQueueMax ≤ structSize rustSemaphore :=
  offsetOf_le_structSize (m := slots) (by decide) (by decide) (by decide)

theorem guardRoom : semaOff .guard + 4 ≤ structSize rustSemaphore := semaOff_word (by decide)

theorem countRoom : semaOff .count + 4 ≤ structSize rustSemaphore := semaOff_word (by decide)

theorem waitRoom : semaOff .waiterCount + 4 ≤ structSize rustSemaphore := semaOff_word (by decide)

theorem semaInitProgram_within (val : Nat) :
    (semaInitProgram val).Within (structSize rustSemaphore) :=
  ⟨semaOff_word (by decide), semaOff_word (by decide), semaOff_word (by decide),
    clearSlots_within semaOff_slots⟩

theorem downProgram_within (cur fuel : Nat) :
    (downProgram cur fuel).Within (structSize rustSemaphore) := by
  induction fuel with
  | zero => trivial
  | succ fuel ih =>
    refine ⟨countRoom, fun curVal => ?_⟩
    beta_reduce
    split
    · refine ⟨countRoom, fun ok => ?_⟩
      cases ok with
      | true => trivial
      | false => exact ih
    apply Within.bind _ (acquire_within guardRoom)
    intro _
    refine ⟨countRoom, fun count => ?_⟩
    beta_reduce
    split
    · exact release_within guardRoom ih
    refine ⟨waitRoom, fun waiting => ?_⟩
    beta_reduce
    split
    · exact pushWaiter_within semaOff_slots waitRoom (release_within guardRoom ih)
    · exact release_within guardRoom ih

theorem upProgram_within (fuel : Nat) : (upProgram fuel).Within (structSize rustSemaphore) := by
  apply Within.bind _ (acquire_within guardRoom)
  intro _
  refine ⟨waitRoom, fun count => ?_⟩
  beta_reduce
  split
  · exact popWaiter_within semaOff_slots waitRoom fun _ => release_within guardRoom trivial
  · exact ⟨countRoom, release_within guardRoom trivial⟩

/-! ## Operations on declared objects -/

inductive Operation
  | mutexInit
  | mutexLock (cur fuel : Nat)
  | mutexTrylock (cur fuel : Nat)
  | mutexUnlock (cur fuel : Nat)
  | semaInit (val : Nat)
  | down (cur fuel : Nat)
  | up (fuel : Nat)

def Operation.program : Operation → Program Unit
  | .mutexInit => mutexInitProgram
  | .mutexLock cur fuel => mutexLockProgram cur fuel
  | .mutexTrylock cur fuel => mutexTrylockProgram cur fuel
  | .mutexUnlock cur fuel => mutexUnlockProgram cur fuel
  | .semaInit val => semaInitProgram val
  | .down cur fuel => downProgram cur fuel
  | .up fuel => upProgram fuel

/-- The operations that are called on objects of a declaration. -/
def Declaration.accepts : Declaration → Operation → Prop
  | .mutexT, .mutexInit | .mutexT, .mutexLock _ _ | .mutexT, .mutexTrylock _ _
  | .mutexT, .mutexUnlock _ _ => True
  | .semaphoreT, .semaInit _ | .semaphoreT, .down _ _ | .semaphoreT, .up _ => True
  | .netSemaphore, .semaInit _ | .netSemaphore, .down _ _ | .netSemaphore, .up _ => True
  | _, _ => False

def sequence : List Operation → Program Unit
  | [] => .done ()
  | op :: rest => op.program.bind fun _ => sequence rest

/-- Any sequence of operations on an object touches only its bytes, and leaves all others. -/
def StaysInside (d : Declaration) : Prop :=
  ∀ ops : List Operation, (∀ op ∈ ops, d.accepts op) →
    (∀ off, (sequence ops).Touches off → off + 4 ≤ d.size) ∧
    ∀ base mem mem', (sequence ops).exec base mem = some ((), mem') →
      ∀ b, b < base ∨ base + d.size ≤ b → mem' b = mem b

theorem sequence_within {size : Nat} (ops : List Operation)
    (within : ∀ op ∈ ops, op.program.Within size) : (sequence ops).Within size := by
  induction ops with
  | nil => trivial
  | cons op rest ih =>
    apply Within.bind _ (within op (List.mem_cons_self ..))
    intro _
    exact ih fun other member => within other (List.mem_cons_of_mem _ member)

theorem staysInside_of_within {d : Declaration}
    (within : ∀ op, d.accepts op → op.program.Within d.size) : StaysInside d := by
  intro ops accepted
  have whole : (sequence ops).Within d.size :=
    sequence_within ops fun op member => within op (accepted op member)
  refine ⟨within_iff.mp whole, ?_⟩
  intro base mem mem' run b outside
  exact exec_frame outside whole run

theorem not_staysInside {d : Declaration} (op : Operation) (off : Nat) (accepted : d.accepts op)
    (touched : (sequence [op]).Touches off) (beyond : d.size < off + 4) : ¬ StaysInside d := by
  intro inside
  have bound := (inside [op] (by simpa using accepted)).1 off touched
  omega

theorem not_staysInside_mutexT : ¬ StaysInside .mutexT := by
  refine not_staysInside .mutexInit 272 trivial ?_ (by decide)
  exact .afterWrite (.afterWrite (.afterWrite (.afterWrite (.write 272 0 _))))

/-- Without `count`, `waiter_count` of the crate lies behind the object. -/
theorem not_staysInside_netSemaphore : ¬ StaysInside .netSemaphore := by
  refine not_staysInside (.semaInit 0) 264 trivial ?_ (by decide)
  exact .afterWrite (.afterWrite (.write 264 0 _))

theorem sync_objects_inside_iff (d : Declaration) : StaysInside d ↔ d = .semaphoreT := by
  cases d with
  | mutexT => exact ⟨fun inside => absurd inside not_staysInside_mutexT, nofun⟩
  | netSemaphore => exact ⟨fun inside => absurd inside not_staysInside_netSemaphore, nofun⟩
  | semaphoreT =>
    refine ⟨fun _ => rfl, fun _ => staysInside_of_within ?_⟩
    intro op accepted
    cases op with
    | semaInit val => exact semaInitProgram_within val
    | down cur fuel => exact downProgram_within cur fuel
    | up fuel => exact upProgram_within fuel
    | _ => exact absurd accepted (by simp [Declaration.accepts])

/-! ## The field behind a lock -/

inductive PipeField
  | magic | buf | readPos | writePos | len | flags | writeOpen | readOpen | refCount
  | lock | name | nameBuf
  deriving DecidableEq, Repr

/-- `pipe_t` of `pipe.h`. -/
def pipeT : List (Member PipeField) :=
  [⟨.magic, 4, 4⟩, ⟨.buf, 4096, 1⟩, ⟨.readPos, 4, 4⟩, ⟨.writePos, 4, 4⟩, ⟨.len, 4, 4⟩,
    ⟨.flags, 4, 4⟩, ⟨.writeOpen, 4, 4⟩, ⟨.readOpen, 4, 4⟩, ⟨.refCount, 4, 4⟩,
    ⟨.lock, Declaration.mutexT.size, 4⟩, ⟨.name, 4, 4⟩, ⟨.nameBuf, 128, 1⟩]

inductive EndpointField
  | magic | kind | used | shutRd | shutWr | eof | peerNoRead | peer | refs | lock | rx | rxLen
  | rxOff | fdq | fdqLen | bound | backlog | pendHead | pendTail | pendNext | pendCount | node
  deriving DecidableEq, Repr

/-- `unix_ep_t` of `unix_sock.c`. -/
def unixEpT : List (Member EndpointField) :=
  [⟨.magic, 4, 4⟩, ⟨.kind, 1, 1⟩, ⟨.used, 1, 1⟩, ⟨.shutRd, 1, 1⟩, ⟨.shutWr, 1, 1⟩, ⟨.eof, 1, 1⟩,
    ⟨.peerNoRead, 1, 1⟩, ⟨.peer, 4, 4⟩, ⟨.refs, 4, 4⟩, ⟨.lock, Declaration.mutexT.size, 4⟩,
    ⟨.rx, 4096, 1⟩, ⟨.rxLen, 4, 4⟩, ⟨.rxOff, 4, 4⟩, ⟨.fdq, 64, 4⟩, ⟨.fdqLen, 4, 4⟩,
    ⟨.bound, 108, 1⟩, ⟨.backlog, 4, 4⟩, ⟨.pendHead, 4, 4⟩, ⟨.pendTail, 4, 4⟩, ⟨.pendNext, 4, 4⟩,
    ⟨.pendCount, 4, 4⟩, ⟨.node, 4, 4⟩]

/-- All bytes zero but the one at `a`. -/
def oneByteSet (a : Nat) : Memory := fun b => if b = a then 1 else 0

/-- Task 1 locks a free pipe and a free endpoint: the name pointer and the first received
bytes are lost. -/
theorem mutex_lock_overwrites_neighbour :
    ¬ StaysInside .mutexT ∧ ¬ StaysInside .netSemaphore ∧
    (load32 (oneByteSet (offsetOf pipeT .name)) (offsetOf pipeT .name) = 1 ∧
      ∃ mem', (mutexLockProgram 1 2).exec (offsetOf pipeT .lock)
          (oneByteSet (offsetOf pipeT .name)) = some ((), mem') ∧
        load32 mem' (offsetOf pipeT .name) = 0) ∧
    load32 (oneByteSet (offsetOf unixEpT .rx)) (offsetOf unixEpT .rx) = 1 ∧
      ∃ mem', (mutexLockProgram 1 2).exec (offsetOf unixEpT .lock)
          (oneByteSet (offsetOf unixEpT .rx)) = some ((), mem') ∧
        load32 mem' (offsetOf unixEpT .rx) = 0 := by
  refine ⟨not_staysInside_mutexT, not_staysInside_netSemaphore, ⟨by decide +kernel, ?_⟩,
    by decide +kernel, ?_⟩
  · exact ⟨_, rfl, by decide +kernel⟩
  · exact ⟨_, rfl, by decide +kernel⟩

end CactKernel.Sync
