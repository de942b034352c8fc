import CactKernel.Memory.Elf

/-! # Processes and their system calls

The address-space side of `task_create.rs`, `task_exec.rs`, `task_fork.rs`,
`sys_brk` and the shared memory of `shm.rs`. `Machine.step` is one system call,
page fault or store of a process. A call that fails before it touches memory is a
step that changes nothing; an `exec` that the loader refuses is no step. -/

set_option autoImplicit false

namespace CactKernel.Memory

open Lib List Function

/-! ## Shared memory segments -/

structure Segment where
  valid : Bool := false
  destroy : Bool := false
  numPages : Nat := 0
  pages : Nat → Nat := fun _ => 0
  nattch : Nat := 0

def maxSegments : Nat := 32

def segmentMaxPages : Nat := 64

def maxAttachments : Nat := 16

def shmVaBase : Nat := 0xA0000

def shmVaLimit : Nat := 0xB0000

structure Attachment where
  /-- `shm_id`; 0 is a free slot. -/
  id : Nat := 0
  /-- `shm_vaddr`, in pages. -/
  base : Nat := 0

/-! ## Tasks -/

/-- The part of a user task and its metadata that its address space depends on. -/
structure Task where
  /-- Which of its directories is the current one. -/
  gen : Nat := 0
  table : MmapTable := {}
  brkStart : Nat := 0
  brkCurrent : Nat := 0
  /-- `ustack_phys` and `ustack_phys_extra`. -/
  ustack : Nat → Nat := fun _ => 0
  /-- `stack_base`, the kernel stack. -/
  kstack : Nat := 0
  /-- `mm.page_dir` is set, so the directory is freed with the task. -/
  tracked : Bool := true
  attachments : Nat → Attachment := fun _ => {}

structure Machine where
  mem : Mem
  objects : Nat → Memfd
  segments : Nat → Segment
  tasks : Nat → Option Task

/-- The machine after `init_memory_manager` and `init_paging`. -/
def boot (map : List MmapEntry) (page : Nat → Nat → UInt8) : Machine where
  mem := ⟨initMemoryManager map, page, identity, fun _ => none⟩
  objects _ := {}
  segments _ := {}
  tasks _ := none

def userStackPages : Nat := 4

def ustackPage : Nat := 0xBFFFC

def trampolinePage : Nat := 0xBEFFF

/-! ## Building blocks -/

namespace Mem

/-- The user stack frames of a new image. -/
structure Stacks where
  mem : Mem
  frames : Nat → Nat

def allocStack (i : Nat) (x : Stacks) : Bool × Stacks :=
  match x.mem.kalloc with
  | (none, m) => (false, { x with mem := m })
  | (some f, m) => (true, ⟨m, update x.frames i f⟩)

def allocStacks (m : Mem) : Bool × Stacks := countWhile allocStack userStackPages ⟨m, fun _ => 0⟩

def mapUserStack (m : Mem) (d : DirId) (frames : Nat → Nat) : Mem :=
  countTo (fun i m => m.vmmMap d (ustackPage + i) (frames i) (userFlags true)) userStackPages m

/-- The bytes that go into the frames of a new user stack. -/
def fillStack (m : Mem) (frames : Nat → Nat) (bytes : Nat → Nat → UInt8) : Mem :=
  countTo (fun i m => m.fill (frames i) (bytes i)) userStackPages m

/-- `map_sigreturn_trampoline_on_pd`; `code` is the page it writes. -/
def mapTrampoline (m : Mem) (d : DirId) (code : Nat → UInt8) : Mem :=
  match m.kalloc with
  | (none, m) => m
  | (some f, m) => (m.fill f code).vmmMap d trampolinePage f (userFlags true)

/-- `calc_highest_mapped_va`, in pages: the page after the highest present one below the stack. -/
def highestMapped (m : Mem) (d : DirId) : Nat → Nat
  | 0 => 0
  | v + 1 => if (m.pteAt d v).flags.present then v + 1 else m.highestMapped d v

def shmUnmapFrom (m : Mem) (d : DirId) (v n : Nat) : Mem :=
  countTo (fun i m => m.setPte d (wrapPage (v + i)) .null) n m

end Mem

namespace Machine

def setTask (s : Machine) (p : Nat) (t : Option Task) : Machine :=
  { s with tasks := update s.tasks p t }

def segValid (s : Machine) (id : Nat) : Bool :=
  1 ≤ id && id ≤ maxSegments && (s.segments (id - 1)).valid

def segFree (s : Machine) (i : Nat) : Machine :=
  let seg := s.segments i
  { s with
    mem := countTo (fun j m => m.freePage (seg.pages j)) seg.numPages s.mem
    segments := update s.segments i { seg with valid := false, nattch := 0 } }

/-- Takes one attachment off a segment. -/
def detach (s : Machine) (id : Nat) : Machine :=
  let seg := s.segments (id - 1)
  let seg := { seg with nattch := seg.nattch - 1 }
  let s := { s with segments := update s.segments (id - 1) seg }
  if seg.destroy && seg.nattch = 0 then s.segFree (id - 1) else s

/-- `shm_detach_all` on directory `d`: each attachment is unmapped there. -/
def shmDetachAll (s : Machine) (t : Task) (d : DirId) : Machine :=
  countTo (fun i s =>
    let att := t.attachments i
    if att.id = 0 ∨ !s.segValid att.id then s
    else
      let s := { s with
        mem := s.mem.shmUnmapFrom d att.base (s.segments (att.id - 1)).numPages }
      s.detach att.id) maxAttachments s

/-! ## Creation, exec, exit -/

/-- What the loader and the stack set-up put into a new image. -/
structure Image where
  file : File
  interp : Option File := none
  /-- argv, envp and the auxiliary vector on the new stack, by page. -/
  stack : Nat → Nat → UInt8
  /-- The sigreturn trampoline. -/
  code : Nat → UInt8

def spawn (s : Machine) (p : Nat) (img : Image) : Option Machine :=
  match s.tasks p with
  | some _ => none
  | none =>
    match s.mem.vmmCreateAddressSpace (p, 0) with
    | (false, _) => none
    | (true, m) =>
      match m.kalloc with
      | (none, _) => none
      | (some kstack, m) =>
        match m.allocStacks with
        | (false, _) => none
        | (true, ustacks) =>
          match loadImage (p, 0) img.file img.interp ustacks.mem with
          | none => none
          | some m =>
            let m := m.mapUserStack (p, 0) ustacks.frames
            let brk := match img.interp with
              | none => m.highestMapped (p, 0) userStackLimit * pageSize
              | some _ => elfBrkStart img.file
            let m := (m.fillStack ustacks.frames img.stack).mapTrampoline (p, 0) img.code
            let t : Task := {
              brkStart := brk
              brkCurrent := brk
              ustack := ustacks.frames
              kstack
              tracked := img.interp.isNone }
            some ({ s with mem := m }.setTask p (some t))

/-- `task_exec`, when the loader accepts the file. An abort for too many strings gives the new
directory back; it is no step. -/
def exec (s : Machine) (p : Nat) (img : Image) : Option Machine :=
  match s.tasks p with
  | none => none
  | some t =>
    let d := (p, t.gen + 1)
    match s.mem.allocStacks with
    | (false, _) => none
    | (true, ustacks) =>
      match ustacks.mem.vmmCreateAddressSpace d with
      | (false, _) => none
      | (true, m) =>
        match loadImage d img.file img.interp m with
        | none => none
        | some m =>
          let m := (m.mapUserStack d ustacks.frames).fillStack ustacks.frames img.stack
          let m := (m.mapTrampoline d img.code).syncKernelMmio d
          let s := { s with mem := m }.shmDetachAll t d
          let m := (s.mem.mapUserStack d ustacks.frames).vmmFreeAddressSpace (p, t.gen)
          let brk := elfBrkStart img.file
          let t : Task := {
            gen := t.gen + 1
            table := t.table.init
            brkStart := brk
            brkCurrent := brk
            ustack := ustacks.frames
            kstack := t.kstack
            tracked := img.interp.isNone }
          some ({ s with mem := m.syncKernelMmio d }.setTask p (some t))

/-- The mapping calls see the machine as one process does. -/
def vm (s : Machine) (t : Task) : Vm := ⟨s.mem, s.objects, t.table⟩

def putVm (s : Machine) (p : Nat) (t : Task) (x : Vm) : Machine :=
  { s with mem := x.mem, objects := x.objects }.setTask p (some { t with table := x.table })

/-- `reap_task_free`. The task has left the task list, so `shm_detach_all` finds nothing. -/
def exit (s : Machine) (p : Nat) : Option Machine :=
  match s.tasks p with
  | none => none
  | some t =>
    let x := (s.vm t).mmapTableFree (p, t.gen)
    let m := if t.tracked then x.mem.vmmFreeAddressSpace (p, t.gen)
      else { x.mem with dirs := update x.mem.dirs (p, t.gen) none }
    some ({ s with mem := m.freePage t.kstack, objects := x.objects }.setTask p none)

end Machine

/-! ## Fork -/

namespace Mem

/-- One entry of a private table, in `vmm_fork_address_space`. -/
def forkEntry (src dst : DirId) (v : Nat) (m : Mem) : Mem :=
  let pte := m.pteAt src v
  if !pte.holds then m.setPte dst v pte
  else if inStackWindow v then
    -- stack pages are cloned at once; copy-on-write is the fallback
    match m.kalloc with
    | (some f, m) =>
      (m.fill f (m.page pte.frame)).setPte dst v ⟨f, { pte.flags with cow := false, rw := true }⟩
    | (none, m) => m.shareCow src dst v pte
  else m.shareCow src dst v pte

def forkTable (src dst : DirId) (i : Nat) (m : Mem) : Mem :=
  match m.dirs src with
  | none => m
  | some dir =>
    -- the mmap window is left to `mmap_table_clone`
    if mmapBase / 1024 ≤ i ∧ i < mmapLimit / 1024 then m
    else match (dir.pde i).table with
      | .kernel => m.setPde dst i (dir.pde i)
      | .own _ _ =>
        match m.kalloc with
        | (none, m) => m
        | (some pt, m) =>
          -- all 1024 entries are written, so nothing of the first contents is left
          countTo (fun j m => m.forkEntry src dst (1024 * i + j)) 1024
            (m.setPde dst i { dir.pde i with table := .own pt fun j => m.kernel (1024 * i + j) })

def vmmForkAddressSpace (m : Mem) (src dst : DirId) : Mem :=
  countTo (fun i m => m.forkTable src dst i) pdKernelEntries m

/-- The four stack pages of the child, copied from the frames that the parent's record names. -/
def forkStack (m : Mem) (dst : DirId) (parent child : Nat → Nat) : Mem :=
  countTo (fun i m =>
    let m := m.vmmMap dst (ustackPage + i) (child i) (userFlags true)
    m.fill (child i) (m.page (parent i))) userStackPages m

end Mem

namespace Machine

/-- `task_fork`. Without memory for the child's first frames everything is given back; that is
no step. -/
def fork (s : Machine) (p c : Nat) (code : Nat → UInt8) : Option Machine :=
  match s.tasks p, s.tasks c with
  | some t, none =>
    match s.mem.vmmCreateAddressSpace (c, 0) with
    | (false, _) => none
    | (true, m) =>
      match m.kalloc with
      | (none, _) => none
      | (some kstack, m) =>
        match m.allocStacks with
        | (false, _) => none
        | (true, ustacks) =>
          let m := ustacks.mem.vmmForkAddressSpace (p, t.gen) (c, 0)
          let x := Vm.mmapTableClone ⟨m, s.objects, t.table⟩ (p, t.gen) (c, 0)
          let m := (x.mem.syncKernelMmio (c, 0)).forkStack (c, 0) t.ustack ustacks.frames
          let m := m.mapTrampoline (c, 0) code
          let child : Task := { t with
            gen := 0
            table := cloneTable t.table {}
            ustack := ustacks.frames
            kstack
            tracked := true
            attachments := fun _ => {} }
          some ({ s with mem := m, objects := x.objects }.setTask c (some child))
  | _, _ => none

/-! ## System calls -/

def growHeap (d : DirId) (v : Nat) (m : Mem) : Bool × Mem :=
  match m.kalloc with
  | (none, m) => (false, m)
  | (some f, m) => (true, (m.zeroPage f).vmmMap d v f (userFlags true))

def brk (s : Machine) (p newBrk : Nat) : Option Machine :=
  match s.tasks p with
  | none => none
  | some t =>
    if newBrk = 0 ∨ newBrk < t.brkStart ∨ 16 * 1024 * 1024 < newBrk - t.brkStart then some s
    else
      let oldEnd := pagesOf t.brkCurrent
      match countWhile (fun i m => growHeap (p, t.gen) (oldEnd + i) m) (pagesOf newBrk - oldEnd)
          s.mem with
      | (true, m) => some ({ s with mem := m }.setTask p (some { t with brkCurrent := newBrk }))
      | (false, m) => some { s with mem := m }

def mmap (s : Machine) (p : Nat) (args : MmapArgs) : Option Machine :=
  (s.tasks p).map fun t => s.putVm p t ((s.vm t).doMmap (p, t.gen) args).2

def munmap (s : Machine) (p addr length : Nat) : Option Machine :=
  match s.tasks p with
  | none => none
  | some t =>
    -- the address is a `u32`
    if 2 ^ 32 ≤ addr then none
    else some (s.putVm p t ((s.vm t).doMunmap (p, t.gen) addr length).2)

def mprotect (s : Machine) (p addr length : Nat) (write : Bool) : Option Machine :=
  (s.tasks p).map fun t =>
    let brkEnd := pagesOf t.brkCurrent * pageSize
    { s with mem := s.mem.doMprotect (p, t.gen) t.table addr length write t.brkStart brkEnd }

def fault (s : Machine) (p v : Nat) (write : Bool) : Option Machine :=
  match s.tasks p with
  | none => none
  | some t =>
    if addressPages ≤ v ∨ s.mem.permits (p, t.gen) v write then none
    else some { s with mem := s.mem.pageFault (p, t.gen) v write }

def store (s : Machine) (p v offset : Nat) (b : UInt8) : Option Machine :=
  match s.tasks p with
  | none => none
  | some t =>
    if v < addressPages ∧ offset < pageSize ∧ s.mem.permits (p, t.gen) v true then
      some { s with mem := s.mem.store (p, t.gen) v offset b }
    else none

/-! ## memfd -/

/-- `memfd_create` and the reference of its descriptor. -/
def memfdCreate (s : Machine) : Machine :=
  match (List.range memfdMax).find? fun i => !(s.objects (i + 1)).valid with
  | none => s
  | some i => { s with objects := update s.objects (i + 1) { valid := true, fds := 1 } }

def memfdRef (s : Machine) (h : Nat) : Machine :=
  if 1 ≤ h ∧ h ≤ memfdMax ∧ (s.objects h).valid then
    let o := { s.objects h with fds := (s.objects h).fds + 1 }
    { s with objects := update s.objects h o }
  else s

def memfdClose (s : Machine) (h : Nat) : Machine :=
  if 1 ≤ h ∧ h ≤ memfdMax ∧ (s.objects h).valid then
    let r := maybeFreeLocked s.mem { s.objects h with fds := (s.objects h).fds - 1 }
    { s with mem := r.1, objects := update s.objects h r.2 }
  else s

/-- The flag is the success of the call. -/
def memfdTruncate (s : Machine) (h size : Nat) : Bool × Machine :=
  if memfdMaxPages * pageSize < size then (false, s)
  else if 1 ≤ h ∧ h ≤ memfdMax ∧ (s.objects h).valid then
    let r := if (s.objects h).size < size then growLocked s.mem (s.objects h) (pagesOf size)
      else (true, s.mem, s.objects h)
    if r.1 then
      let o := { r.2.2 with size }
      (true, { s with mem := r.2.1, objects := update s.objects h o })
    else (false, { s with mem := r.2.1 })
  else (false, s)

/-! ## Shared memory -/

/-- `shm_get` for a new segment. -/
def shmGet (s : Machine) (size : Nat) : Machine :=
  match (List.range maxSegments).find? fun i => !(s.segments i).valid with
  | none => s
  | some i =>
    if size = 0 ∨ segmentMaxPages < pagesOf size then s
    else
      match countWhile (growPage 0) (pagesOf size) ⟨s.mem, (s.segments i).pages, 0⟩ with
      | (true, g) =>
        let seg : Segment := { valid := true, numPages := pagesOf size, pages := g.pages }
        { s with mem := g.mem, segments := update s.segments i seg }
      | (false, g) => { s with mem := countTo (fun j m => m.freePage (g.pages j)) g.taken g.mem }

/-- An attachment in the way of `n` pages at `c`. -/
def shmClash (s : Machine) (t : Task) (c n : Nat) (i : Nat) : Bool :=
  let att := t.attachments i
  let attEnd := wrapPage (att.base + (s.segments (att.id - 1)).numPages)
  att.id ≠ 0 && s.segValid att.id && c < attEnd && att.base < c + n

/-- `find_shm_va`; the candidate grows at every clash. -/
def findShmVa (s : Machine) (t : Task) (n : Nat) : Nat → Nat → Option Nat
  | 0, _ => none
  | fuel + 1, c =>
    if shmVaLimit < c + n then none
    else match (List.range maxAttachments).find? fun i => s.shmClash t c n i with
      | none => some c
      | some i =>
        let att := t.attachments i
        s.findShmVa t n fuel (wrapPage (att.base + (s.segments (att.id - 1)).numPages))

/-- Where `shm_at` attaches, in pages. -/
def shmChooseVa (s : Machine) (t : Task) (n addr : Nat) (round : Bool) : Option Nat :=
  if addr = 0 then s.findShmVa t n addressPages shmVaBase
  else if !round && addr % pageSize ≠ 0 then none
  else some (addr / pageSize)

def shmAt (s : Machine) (p id addr : Nat) (readOnly round : Bool) : Option Machine :=
  match s.tasks p with
  | none => none
  | some t =>
    let seg := s.segments (id - 1)
    match (List.range maxAttachments).find? fun i => (t.attachments i).id = 0 with
    | none => some s
    | some slot =>
      if !s.segValid id then some s
      else match s.shmChooseVa t seg.numPages addr round with
        | none => some s
        | some v =>
          let m := countTo (fun i m =>
            m.vmmMap (p, t.gen) (wrapPage (v + i)) (seg.pages i) (userFlags !readOnly))
            seg.numPages s.mem
          let seg := { seg with nattch := seg.nattch + 1 }
          let t := { t with attachments := update t.attachments slot ⟨id, v⟩ }
          some ({ s with mem := m, segments := update s.segments (id - 1) seg }.setTask p
            (some t))

def shmDt (s : Machine) (p addr : Nat) : Option Machine :=
  match s.tasks p with
  | none => none
  | some t =>
    match (List.range maxAttachments).find? fun i =>
        (t.attachments i).base * pageSize = addr && (t.attachments i).id ≠ 0 with
    | none => some s
    | some i =>
      let att := t.attachments i
      let s := s.setTask p (some { t with attachments := update t.attachments i {} })
      if !s.segValid att.id then some s
      else
        let n := (s.segments (att.id - 1)).numPages
        some ({ s with mem := s.mem.shmUnmapFrom (p, t.gen) att.base n }.detach att.id)

/-- `shm_ctl` with `IPC_RMID`. -/
def shmRemove (s : Machine) (id : Nat) : Machine :=
  if !s.segValid id then s
  else
    let seg := { s.segments (id - 1) with destroy := true }
    let s := { s with segments := update s.segments (id - 1) seg }
    if seg.nattch = 0 then s.segFree (id - 1) else s

/-! ## Steps -/

inductive Action
  | spawn (p : Nat) (img : Image)
  | exec (p : Nat) (img : Image)
  | fork (p c : Nat) (code : Nat → UInt8)
  | exit (p : Nat)
  | brk (p newBrk : Nat)
  | mmap (p : Nat) (args : MmapArgs)
  | munmap (p addr length : Nat)
  | mprotect (p addr length : Nat) (write : Bool)
  | fault (p v : Nat) (write : Bool)
  | store (p v offset : Nat) (b : UInt8)
  | memfdCreate
  | memfdRef (h : Nat)
  | memfdClose (h : Nat)
  | memfdTruncate (h size : Nat)
  | shmGet (size : Nat)
  | shmAt (p id addr : Nat) (readOnly round : Bool)
  | shmDt (p addr : Nat)
  | shmRemove (id : Nat)

def step (s : Machine) : Action → Option Machine
  | .spawn p img => s.spawn p img
  | .exec p img => s.exec p img
  | .fork p c code => s.fork p c code
  | .exit p => s.exit p
  | .brk p newBrk => s.brk p newBrk
  | .mmap p args => s.mmap p args
  | .munmap p addr length => s.munmap p addr length
  | .mprotect p addr length write => s.mprotect p addr length write
  | .fault p v write => s.fault p v write
  | .store p v offset b => s.store p v offset b
  | .memfdCreate => some s.memfdCreate
  | .memfdRef h => some (s.memfdRef h)
  | .memfdClose h => some (s.memfdClose h)
  | .memfdTruncate h size => some (s.memfdTruncate h size).2
  | .shmGet size => some (s.shmGet size)
  | .shmAt p id addr readOnly round => s.shmAt p id addr readOnly round
  | .shmDt p addr => s.shmDt p addr
  | .shmRemove id => some (s.shmRemove id)

end Machine

end CactKernel.Memory
