import CactKernel.Memory.World

/-! # Swapping

`swap.rs`, and the calls that copy, drop or rewrite entries of swapped-out pages:
`task_fork`, `do_munmap`, the exit of a process and the page-fault handler.

Any `kalloc` that finds no frame evicts a page of the running process and tries
again, so pages are swapped out in the middle of these calls. A call is therefore
a list of operations, one for each entry it handles, and `tick` does the next one;
evictions are steps of their own and fall anywhere between them. -/

set_option autoImplicit false

namespace CactKernel.Memory

open Lib List Function

/-- `PAGE_SWAPPED` is the bit of `PAGE_PWT`; the frame field of such an entry is the slot. -/
def Pte.slot (e : Pte) : Option Nat :=
  if !e.flags.present && e.flags.pwt then some e.frame else none

/-- `swap_encode_pte` with the rights of the page. -/
def swapEncodePte (slot : Nat) (old : Flags) : Pte :=
  ⟨slot, { pwt := true, rw := old.rw, user := old.user }⟩

def Mem.slotAt (m : Mem) (d : DirId) (v : Nat) : Option Nat := (m.pteAt d v).slot

/-! ## The backing store -/

structure Device where
  total : Nat
  used : Nat → Bool
  /-- `G_CLOCK_PDI` and `G_CLOCK_PTJ`. -/
  clock : Nat × Nat
  disk : Nat → Nat → UInt8
  /-- Ghost: the page whose bytes were written to the slot last. -/
  writer : Nat → DirId × Nat

def swapMaxSlots : Nat := 65536

def swapInit (slots : Nat) (disk : Nat → Nat → UInt8) : Device where
  total := if slots = 0 ∨ swapMaxSlots < slots then swapMaxSlots else slots
  used _ := false
  clock := (32, 0)
  disk := disk
  writer _ := ((0, 0), 0)

namespace Device

def bitmapAlloc (dev : Device) : Option Nat := (List.range dev.total).find? fun i => !dev.used i

def bitmapFree (dev : Device) (slot : Nat) : Device :=
  if dev.total ≤ slot then dev else { dev with used := update dev.used slot false }

/-- `swap_out_page`; `written` is the result of the disk write. -/
def swapOutPage (dev : Device) (page : DirId × Nat) (bytes : Nat → UInt8) (written : Bool) :
    Option Nat × Device :=
  match dev.bitmapAlloc with
  | none => (none, dev)
  | some slot =>
    let dev := { dev with used := update dev.used slot true }
    if written then
      (some slot, { dev with
        disk := update dev.disk slot bytes
        writer := update dev.writer slot page })
    else (none, dev.bitmapFree slot)

/-- `swap_in_page`: the bytes of the slot, which is free afterwards. -/
def swapInPage (dev : Device) (slot : Nat) (read : Bool) : Option (Nat → UInt8) × Device :=
  if dev.total ≤ slot ∨ !read then (none, dev) else (some (dev.disk slot), dev.bitmapFree slot)

end Device

/-! ## The clock -/

def clockNext (hand : Nat × Nat) : Nat × Nat :=
  if 1024 ≤ hand.2 + 1 then (hand.1 + 1, 0) else (hand.1, hand.2 + 1)

/-- `max_iter`. -/
def clockRounds : Nat := 2 * 1024 * 992

/-- The loop of `swap_evict_page`: the page it takes and the hand after it. Pages that were
accessed get a second chance. -/
def clockScan (m : Mem) (d : DirId) : Nat → Nat × Nat → (Nat → Bool) →
    Option (Nat × (Nat × Nat)) × (Nat → Bool)
  | 0, _, accessed => (none, accessed)
  | rounds + 1, hand, accessed =>
    let hand := if 1024 ≤ hand.1 then (32, 0) else hand
    let v := 1024 * hand.1 + hand.2
    match m.ownPte d v with
    | none => clockScan m d rounds (hand.1 + 1, 0) accessed
    | some e =>
      if !e.holds then clockScan m d rounds (clockNext hand) accessed
      else if accessed v then
        clockScan m d rounds (clockNext hand) (update accessed v false)
      else (some (v, clockNext hand), accessed)

/-! ## Processes -/

/-- What is left to do of a call, entry by entry. -/
inductive Op
  | forkTable (i : Nat)
  | forkEntry (v : Nat)
  | cloneRegion (i : Nat)
  | cloneEntry (v : Nat) (shared : Bool)
  | freeRegion (i : Nat)
  | munmap (addr length : Nat)
  | unmapEntry (region a n k : Nat)

/-- How a call ends. -/
inductive Finish
  | back
  | birth (child : DirId) (kstack : Nat) (ustack : Nat → Nat) (code : Nat → UInt8)
  | death

structure Proc where
  table : MmapTable := {}
  ustack : Nat → Nat
  kstack : Nat
  tracked : Bool
  /-- The call that the process is in. -/
  job : Option (List Op × Finish) := none

structure Swapping where
  mem : Mem
  objects : Nat → Memfd
  procs : DirId → Option Proc
  dev : Device
  /-- `PTE_ACCESSED`. -/
  accessed : DirId → Nat → Bool

/-- One operation of a call by `d`; `c` is the child of a fork. The operations that it leaves
for later stand in front of the others. -/
def Op.run (d c : DirId) : Op → Vm → Vm × List Op
  | .forkTable i, x =>
    match x.mem.dirs d with
    | none => (x, [])
    | some dir =>
      if mmapBase / 1024 ≤ i ∧ i < mmapLimit / 1024 then (x, [])
      else match (dir.pde i).table with
        | .kernel => ({ x with mem := x.mem.setPde c i (dir.pde i) }, [])
        | .own _ _ =>
          match x.mem.kalloc with
          | (none, m) => ({ x with mem := m }, [])
          | (some pt, m) =>
            let table : Table := .own pt fun j => m.kernel (1024 * i + j)
            ({ x with mem := m.setPde c i { dir.pde i with table } },
              (List.range 1024).map fun j => .forkEntry (1024 * i + j))
  | .forkEntry v, x => ({ x with mem := x.mem.forkEntry d c v }, [])
  | .cloneRegion i, x =>
    let r := x.table.regions i
    if !r.used then (x, [])
    else (if r.shared && 0 < r.object then (x.memfdMapInc r.object).2 else x,
      (List.range r.pages).map fun k => .cloneEntry (wrapPage (r.base + k)) r.shared)
  | .cloneEntry v true, x => ({ x with mem := x.mem.cloneShared d c v }, [])
  | .cloneEntry v false, x => ({ x with mem := x.mem.clonePrivate d c v }, [])
  | .freeRegion i, x =>
    let r := x.table.regions i
    (x, if !r.used then [] else [.munmap (r.base * pageSize) (r.pages * pageSize)])
  | .munmap addr length, x =>
    (x, if length = 0 ∨ addr % pageSize ≠ 0 then []
      else match x.table.find (Vm.unmapTest (addr / pageSize) (pagesOf length)) with
        | none => []
        | some i => [.unmapEntry i (addr / pageSize) (pagesOf length) 0])
  | .unmapEntry i a n k, x =>
    if n ≤ k then (x.shrinkRegion i a n, [])
    else match x.mem.unmapPage d (wrapPage (a + k)) with
      | (true, m) => ({ x with mem := m }, [.unmapEntry i a n (k + 1)])
      | (false, m) => ({ x with mem := m }, [])

/-- The page whose entry the operation copies or clears. -/
def Op.page : Op → Option Nat
  | .forkEntry v => some v
  | .cloneEntry v _ => some v
  | .unmapEntry _ a n k => if n ≤ k then none else some (wrapPage (a + k))
  | _ => none

namespace Swapping

def setProc (s : Swapping) (d : DirId) (p : Option Proc) : Swapping :=
  { s with procs := update s.procs d p }

/-- The process can be the running one, so `kalloc` may take its pages: it is not being reaped. -/
def runs (s : Swapping) (d : DirId) : Bool :=
  match s.procs d with
  | none => false
  | some p => match p.job with
    | some (_, .death) => false
    | _ => true

def swapEvictPage (s : Swapping) (d : DirId) (written : Bool) : Bool × Swapping :=
  match clockScan s.mem d clockRounds s.dev.clock (s.accessed d) with
  | (none, accessed) => (false, { s with accessed := update s.accessed d accessed })
  | (some (v, hand), accessed) =>
    let s := { s with accessed := update s.accessed d accessed }
    let old := s.mem.pteAt d v
    match s.dev.swapOutPage (d, v) (s.mem.page old.frame) written with
    | (none, dev) => (false, { s with dev })
    | (some slot, dev) =>
      (true, { s with
        mem := (s.mem.setPte d v (swapEncodePte slot old.flags)).freePage old.frame
        dev := { dev with clock := hand } })

/-- Brings the page in at frame `f`. -/
def swapLoad (s : Swapping) (d : DirId) (v slot f : Nat) (read : Bool) : Swapping :=
  let flags := (s.mem.pteAt d v).flags
  match s.dev.swapInPage slot read with
  | (none, _) => { s with mem := s.mem.freePage f }
  | (some bytes, dev) =>
    let entry : Pte := ⟨f, { present := true, rw := flags.rw, user := flags.user }⟩
    { s with mem := (s.mem.fill f bytes).setPte d v entry, dev }

/-- `swap_handle_fault`: without a frame it evicts a page itself and tries once more. -/
def swapHandleFault (s : Swapping) (d : DirId) (v : Nat) (written read : Bool) : Swapping :=
  match s.mem.slotAt d v with
  | none => s
  | some slot =>
    match s.mem.kalloc with
    | (some f, m) => { s with mem := m }.swapLoad d v slot f read
    | (none, m) =>
      match { s with mem := m }.swapEvictPage d written with
      | (false, s) => s
      | (true, s) =>
        match s.mem.kalloc with
        | (none, m) => { s with mem := m }
        | (some f, m) => { s with mem := m }.swapLoad d v slot f read

/-- `page_fault_handler`. -/
def pageFault (s : Swapping) (d : DirId) (v : Nat) (write written read : Bool) : Swapping :=
  if (s.mem.slotAt d v).isSome then s.swapHandleFault d v written read
  else { s with mem := s.mem.pageFault d v write }

/-! ## Calls -/

def forkOps : List Op :=
  (List.range pdKernelEntries).map Op.forkTable ++ (List.range maxRegions).map Op.cloneRegion

/-- `task_fork` up to the copy of the address space. -/
def beginFork (s : Swapping) (d c : DirId) (p : Proc) (code : Nat → UInt8) : Option Swapping :=
  match s.mem.vmmCreateAddressSpace c with
  | (false, _) => none
  | (true, m) =>
    match m.kalloc with
    | (none, _) => none
    | (some kstack, m) =>
      match m.allocStacks with
      | (false, _) => none
      | (true, ustacks) =>
        let job := some (forkOps, Finish.birth c kstack ustacks.frames code)
        some ({ s with mem := ustacks.mem }.setProc d (some { p with job }))

/-- What a call does when its list is empty. -/
def finish (s : Swapping) (d : DirId) (p : Proc) : Finish → Swapping
  | .back => s.setProc d (some { p with job := none })
  | .birth c kstack ustack code =>
    let m := ((s.mem.syncKernelMmio c).forkStack c p.ustack ustack).mapTrampoline c code
    let child : Proc := { table := cloneTable p.table {}, ustack, kstack, tracked := true }
    ({ s with mem := m }.setProc d (some { p with job := none })).setProc c (some child)
  | .death =>
    let m := if p.tracked then s.mem.vmmFreeAddressSpace d else s.mem.dropDir d
    { s with mem := m.freePage p.kstack }.setProc d none

def Finish.child (d : DirId) : Finish → DirId
  | .birth c _ _ _ => c
  | _ => d

/-- The next operation of the call that `d` is in. -/
def tick (s : Swapping) (d : DirId) (p : Proc) : List Op × Finish → Swapping
  | ([], fin) => s.finish d p fin
  | (op :: rest, fin) =>
    match op.run d (Finish.child d fin) ⟨s.mem, s.objects, p.table⟩ with
    | (x, more) =>
      { s with mem := x.mem, objects := x.objects }.setProc d
        (some { p with table := x.table, job := some (more ++ rest, fin) })

inductive Action
  | touch (d : DirId) (v : Nat)
  | store (d : DirId) (v offset : Nat) (b : UInt8)
  | evict (d : DirId) (written : Bool)
  | fault (d : DirId) (v : Nat) (write written read : Bool)
  | fork (d c : DirId) (code : Nat → UInt8)
  | munmap (d : DirId) (addr length : Nat)
  | exit (d : DirId)
  | tick (d : DirId)

/-- The process that acts is in no call. -/
def idle (s : Swapping) (d : DirId) : Option Proc :=
  match s.procs d with
  | none => none
  | some p => if p.job.isSome then none else some p

def step (s : Swapping) : Action → Option Swapping
  | .touch d v =>
    if (s.mem.pteAt d v).flags.present then
      some { s with
        accessed := update s.accessed d (update (s.accessed d) v true) }
    else none
  | .store d v offset b =>
    if s.mem.permits d v true ∧ offset < pageSize then
      some { s with mem := s.mem.store d v offset b }
    else none
  | .evict d written => if s.runs d then some (s.swapEvictPage d written).2 else none
  | .fault d v write written read =>
    (s.idle d).bind fun _ =>
      if addressPages ≤ v ∨ s.mem.permits d v write then none
      else some (s.pageFault d v write written read)
  | .fork d c code =>
    (s.idle d).bind fun p =>
      if (s.mem.dirs c).isSome ∨ (s.procs c).isSome then none else s.beginFork d c p code
  | .munmap d addr length =>
    (s.idle d).bind fun p =>
      if 2 ^ 32 ≤ addr then none
      else some (s.setProc d (some { p with job := some ([.munmap addr length], .back) }))
  | .exit d =>
    (s.idle d).bind fun p =>
      some (s.setProc d
        (some { p with job := some ((List.range maxRegions).map Op.freeRegion, .death) }))
  | .tick d => (s.procs d).bind fun p => p.job.map (s.tick d p)

end Swapping

end CactKernel.Memory
