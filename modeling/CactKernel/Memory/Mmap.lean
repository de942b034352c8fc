import CactKernel.Memory.Fault

/-! # Memory mappings

`mmap.rs`, `mmap_clone.rs` and the objects of `memfd.rs` that shared mappings
point at. `base` and `pages` of a region are in pages, since the code keeps both
page aligned; byte arguments of the system calls stay bytes. -/

set_option autoImplicit false

namespace CactKernel.Memory

open Lib Function

/-! ## memfd objects -/

structure Memfd where
  valid : Bool := false
  size : Nat := 0
  numPages : Nat := 0
  pages : Nat → Nat := fun _ => 0
  fds : Nat := 0
  maps : Nat := 0

def memfdMax : Nat := 32

def memfdMaxPages : Nat := 1024

/-- A growing object, and the number of frames that it got. -/
structure Growth where
  mem : Mem
  pages : Nat → Nat
  taken : Nat

def growPage (start i : Nat) (g : Growth) : Bool × Growth :=
  match g.mem.kalloc with
  | (none, m) => (false, { g with mem := m })
  | (some f, m) =>
    (true, ⟨m.zeroPage f, update g.pages (start + i) f, g.taken + 1⟩)

/-- `grow_locked`; the frames of a failed call are given back. -/
def growLocked (m : Mem) (o : Memfd) (need : Nat) : Bool × Mem × Memfd :=
  if need ≤ o.numPages then (true, m, o)
  else if memfdMaxPages < need then (false, m, o)
  else
    match countWhile (growPage o.numPages) (need - o.numPages) ⟨m, o.pages, 0⟩ with
    | (true, g) => (true, g.mem, { o with numPages := need, pages := g.pages })
    | (false, g) =>
      (false, countTo (fun j m => m.freePage (g.pages (o.numPages + j))) g.taken g.mem, o)

def maybeFreeLocked (m : Mem) (o : Memfd) : Mem × Memfd :=
  if !o.valid || o.fds ≠ 0 || o.maps ≠ 0 then (m, o)
  else (countTo (fun i m => m.freePage (o.pages i)) o.numPages m,
    { o with numPages := 0, size := 0, valid := false })

/-! ## Regions -/

structure Region where
  used : Bool := false
  base : Nat := 0
  pages : Nat := 0
  /-- `MAP_SHARED`. -/
  shared : Bool := false
  /-- `shobj`: the handle of a shared memfd mapping, or 0. -/
  object : Nat := 0

def maxRegions : Nat := 256

def mmapBase : Nat := 0x40000

def mmapLimit : Nat := 0xBF000

structure MmapTable where
  regions : Nat → Region := fun _ => {}
  nextBase : Nat := mmapBase

def MmapTable.init (t : MmapTable) : MmapTable :=
  ⟨fun i => { t.regions i with used := false, object := 0 }, mmapBase⟩

/-- The first slot whose region satisfies the test. -/
def MmapTable.find (t : MmapTable) (test : Region → Bool) : Option Nat :=
  (List.range maxRegions).find? fun i => test (t.regions i)

def MmapTable.set (t : MmapTable) (i : Nat) (r : Region) : MmapTable :=
  { t with regions := update t.regions i r }

def Region.covers (r : Region) (v : Nat) : Bool := r.used && r.base ≤ v && v < r.base + r.pages

/-- What the mapping calls of one process work on. -/
structure Vm where
  mem : Mem
  objects : Nat → Memfd
  table : MmapTable

namespace Vm

def handleValid (x : Vm) (h : Nat) : Bool := 1 ≤ h && h ≤ memfdMax && (x.objects h).valid

def memfdMapInc (x : Vm) (h : Nat) : Bool × Vm :=
  if !x.handleValid h then (false, x)
  else
    let o := { x.objects h with maps := (x.objects h).maps + 1 }
    (true, { x with objects := update x.objects h o })

@[simp] theorem memfdMapInc_mem {x : Vm} {h : Nat} : (x.memfdMapInc h).2.mem = x.mem := by
  unfold memfdMapInc
  split
  · rfl
  · rfl

def memfdMapDec (x : Vm) (h : Nat) : Vm :=
  if !x.handleValid h then x
  else
    let r := maybeFreeLocked x.mem { x.objects h with maps := (x.objects h).maps - 1 }
    { x with mem := r.1, objects := update x.objects h r.2 }

/-- `memfd_grow_to`; `needed` is a byte offset. -/
def memfdGrowTo (x : Vm) (h needed : Nat) : Bool × Vm :=
  if !x.handleValid h then (false, x)
  else
    match growLocked x.mem (x.objects h) (pagesOf needed) with
    | (true, m, o) =>
      let o := { o with size := max o.size needed }
      (true, { x with mem := m, objects := update x.objects h o })
    | (false, m, _) => (false, { x with mem := m })

/-! ## munmap -/

/-- The region that `do_munmap` takes. -/
def unmapTest (a n : Nat) (r : Region) : Bool :=
  r.used && ((r.base = a && r.pages = n) ||
    (r.base ≤ a && wrapPage (a + n) ≤ wrapPage (r.base + r.pages)))

end Vm

namespace Mem

/-- Releases the frame of a user entry and clears the entry. -/
def clearPte (m : Mem) (d : DirId) (v : Nat) : Mem :=
  let pte := m.pteAt d v
  (if pte.holds then m.freePage pte.frame else m).setPte d v .null

def unmapPage (d : DirId) (v : Nat) (m : Mem) : Bool × Mem :=
  match m.ensurePdePrivate d (v / 1024) with
  | (.ok, m) => (true, m.clearPte d v)
  | (.kernelMmio, m) => (true, m)
  | (.oom, m) => (false, m)

def unmapPages (m : Mem) (d : DirId) (a n : Nat) : Bool × Mem :=
  countWhile (fun i m => unmapPage d (wrapPage (a + i)) m) n m

end Mem

namespace Vm

/-- The region table after the pages are gone. -/
def shrinkRegion (x : Vm) (i a n : Nat) : Vm :=
  let r := x.table.regions i
  if a = r.base ∧ r.pages ≤ n then
    let x := { x with table := x.table.set i { r with used := false, object := 0 } }
    if 0 < r.object then x.memfdMapDec r.object else x
  else if a = r.base then
    { x with table := x.table.set i { r with base := r.base + n, pages := r.pages - n } }
  else { x with table := x.table.set i { r with pages := a - r.base } }

def doMunmap (x : Vm) (d : DirId) (addr length : Nat) : Bool × Vm :=
  if length = 0 ∨ addr % 4096 ≠ 0 then (false, x)
  else
    let a := addr / 4096
    let n := pagesOf length
    match x.table.find (unmapTest a n) with
    | none => (false, x)
    | some i =>
      match x.mem.unmapPages d a n with
      | (false, m) => (false, { x with mem := m })
      | (true, m) => (true, { x with mem := m }.shrinkRegion i a n)

end Vm

/-! ## mmap -/

/-- What a file descriptor stands for: the handle of a memfd, or 0, and the contents that
`read_vfs` gives for a page, if there is a node. -/
structure Fd where
  handle : Nat
  read : Option (Nat → Nat → UInt8)

structure MmapArgs where
  hint : Nat := 0
  length : Nat
  write : Bool := true
  shared : Bool := false
  priv : Bool := false
  fixed : Bool := false
  anon : Bool := false
  fd : Option Fd := none
  offset : Nat := 0

/-- The regions in the way of `n` pages at `c`. -/
def clashTest (c n : Nat) (r : Region) : Bool :=
  r.used && c < wrapPage (r.base + r.pages) && r.base < wrapPage (c + n)

/-- The candidate grows at every clash, so `addressPages` rounds are enough. -/
def MmapTable.findFreeVa (t : MmapTable) (n : Nat) : Nat → Nat → Option Nat
  | 0, _ => none
  | fuel + 1, c =>
    if mmapLimit < wrapPage (c + n) ∨ wrapPage (c + n) < c then none
    else match t.find (clashTest c n) with
      | none => some c
      | some i => t.findFreeVa n fuel (wrapPage ((t.regions i).base + (t.regions i).pages))

/-- Rounds of a mapping loop, counted for its clean-up. -/
structure Progress where
  mem : Mem
  installed : Nat

def objectPage (o : Memfd) (i : Nat) : Option Nat :=
  if i < o.numPages then some (o.pages i) else none

def installObjectPage (d : DirId) (o : Memfd) (v first : Nat) (fl : Flags) (i : Nat)
    (g : Progress) : Bool × Progress :=
  match objectPage o (first + i) with
  | none => (false, g)
  | some f =>
    let m := g.mem.vmmMap d (v + i) f fl
    if m.translate d (v + i) = some f then (true, ⟨m.pageRefInc f, g.installed + 1⟩)
    else (false, { g with mem := m })

def readFilePage (d : DirId) (read : Option (Nat → Nat → UInt8)) (v offset : Nat) (fl : Flags)
    (i : Nat) (g : Progress) : Bool × Progress :=
  match g.mem.kalloc with
  | (none, m) => (false, { g with mem := m })
  | (some f, m) =>
    let bytes := match read with
      | none => fun _ => 0
      | some content => content ((offset + i * pageSize) % 2 ^ 32)
    (true, ⟨(m.fill f bytes).vmmMap d (v + i) f fl, g.installed + 1⟩)

namespace Vm

def mapObject (x : Vm) (d : DirId) (h v n offset : Nat) (fl : Flags) : Bool × Vm :=
  if offset % pageSize ≠ 0 then (false, x)
  else match x.memfdMapInc h with
    | (false, x) => (false, x)
    | (true, x) =>
      match x.memfdGrowTo h ((offset + n * pageSize) % 2 ^ 32) with
      | (false, x) => (false, x.memfdMapDec h)
      | (true, x) =>
        match countWhile (installObjectPage d (x.objects h) v (offset / pageSize) fl) n
            ⟨x.mem, 0⟩ with
        | (true, g) => (true, { x with mem := g.mem })
        | (false, g) =>
          let m := countTo (fun i m => m.clearPte d (v + i)) g.installed g.mem
          (false, { x with mem := m }.memfdMapDec h)

def mapFile (x : Vm) (d : DirId) (fd : Fd) (v n offset : Nat) (fl : Flags) : Bool × Vm :=
  match countWhile (readFilePage d fd.read v offset fl) n ⟨x.mem, 0⟩ with
  | (true, g) => (true, { x with mem := g.mem })
  | (false, g) =>
    (false, ({ x with mem := g.mem }.doMunmap d (v * pageSize) (g.installed * pageSize)).2)

/-- The address that `do_mmap` chooses, in pages. -/
def chooseVa (x : Vm) (args : MmapArgs) : Option Nat :=
  if args.fixed && args.hint ≠ 0 then
    if args.hint % pageSize ≠ 0 then none
    else if totalPages ≤ args.hint / pageSize ∨
        totalPages < args.hint / pageSize + pagesOf args.length then none
    else some (args.hint / pageSize)
  else x.table.findFreeVa (pagesOf args.length) addressPages x.table.nextBase

/-- The frames of a new mapping, and the handle of a shared memfd. -/
def backing (x : Vm) (d : DirId) (args : MmapArgs) (v : Nat) : Option Nat × Vm :=
  let n := pagesOf args.length
  let fl := userFlags args.write
  if args.anon then
    match x.mem.vmmMapZero d v n true with
    | (true, m) => (some 0, { x with mem := m })
    | (false, m) => (none, { x with mem := m })
  else match args.fd with
    | none => (none, x)
    | some fd =>
      if args.shared && 0 < fd.handle then
        match x.mapObject d fd.handle v n args.offset fl with
        | (true, x) => (some fd.handle, x)
        | (false, x) => (none, x)
      else match x.mapFile d fd v n args.offset fl with
        | (true, x) => (some 0, x)
        | (false, x) => (none, x)

def doMmap (x : Vm) (d : DirId) (args : MmapArgs) : Option Nat × Vm :=
  if args.length = 0 ∨ (!args.shared && !args.priv) then (none, x)
  else match x.chooseVa args with
    | none => (none, x)
    | some v =>
      match x.table.find fun r => !r.used with
      | none => (none, x)
      | some slot =>
        match x.backing d args v with
        | (none, x) => (none, x)
        | (some object, x) =>
          let r : Region := ⟨true, v, pagesOf args.length, args.shared, object⟩
          let nextBase := max x.table.nextBase (v + pagesOf args.length)
          (some v, { x with table := { x.table.set slot r with nextBase } })

end Vm

/-! ## mprotect -/

namespace Mem

def protectPage (d : DirId) (v : Nat) (write : Bool) (m : Mem) : Bool × Mem :=
  match m.ensurePdePrivate d (v / 1024) with
  | (.ok, m) =>
    let pte := m.pteAt d v
    (true, if pte.flags.present then m.setPte d v ⟨pte.frame, userFlags write⟩ else m)
  | (.kernelMmio, m) => (true, m)
  | (.oom, m) => (false, m)

/-- The page `a` is in a region or, as bytes, in the heap. -/
def mprotectTest (t : MmapTable) (a brkStart brkEnd : Nat) : Bool :=
  (t.find fun r => r.used && r.base ≤ a && a < wrapPage (r.base + r.pages)).isSome ||
    (brkStart ≤ a * pageSize && a * pageSize < brkEnd)

def doMprotect (m : Mem) (d : DirId) (t : MmapTable) (addr length : Nat) (write : Bool)
    (brkStart brkEnd : Nat) : Mem :=
  if length = 0 ∨ addr % pageSize ≠ 0 then m
  else if !mprotectTest t (addr / pageSize) brkStart brkEnd then m
  else (countWhile (fun i m => protectPage d (wrapPage (addr / pageSize + i)) write m)
    (pagesOf length) m).2

end Mem

/-! ## Fork and teardown -/

namespace Mem

/-- A page of a shared region: the child gets the entry as it is. -/
def cloneShared (src dst : DirId) (v : Nat) (m : Mem) : Mem :=
  let pte := m.pteAt src v
  if pte = .null then m
  else match m.ensurePdePrivate dst (v / 1024) with
    | (.ok, m) =>
      let m := m.setPte dst v pte
      if pte.flags.present then m.pageRefInc pte.frame else m
    | (_, m) => m

/-- Both entries lose `PAGE_RW` and become copy-on-write. -/
def shareCow (m : Mem) (src dst : DirId) (v : Nat) (pte : Pte) : Mem :=
  let cowPte : Pte := ⟨pte.frame, { pte.flags with rw := false, cow := true }⟩
  ((m.setPte src v cowPte).setPte dst v cowPte).pageRefInc pte.frame

/-- A page of a private region: copy-on-write in both. -/
def clonePrivate (src dst : DirId) (v : Nat) (m : Mem) : Mem :=
  let pte := m.pteAt src v
  match m.ensurePdePrivate dst (v / 1024) with
  | (.ok, m) =>
    if !pte.flags.present then m.setPte dst v pte
    else match m.ensurePdePrivate src (v / 1024) with
      | (.ok, m) => m.shareCow src dst v pte
      | (_, m) => m
  | (_, m) => m

def cloneRegion (src dst : DirId) (r : Region) (m : Mem) : Mem :=
  countTo (fun i m =>
    if r.shared then m.cloneShared src dst (wrapPage (r.base + i))
    else m.clonePrivate src dst (wrapPage (r.base + i))) r.pages m

end Mem

/-- The regions of the child are those of the parent; its own table is `dst`. -/
def cloneTable (src dst : MmapTable) : MmapTable :=
  ⟨fun i => if (src.regions i).used then src.regions i else { dst.regions i with used := false },
    src.nextBase⟩

namespace Vm

/-- `mmap_table_clone`; `x.table` is the parent's table. -/
def mmapTableClone (x : Vm) (src dst : DirId) : Vm :=
  countTo (fun i x =>
    let r := x.table.regions i
    if !r.used then x
    else
      let x := if r.shared && 0 < r.object then (x.memfdMapInc r.object).2 else x
      { x with mem := x.mem.cloneRegion src dst r }) maxRegions x

def mmapTableFree (x : Vm) (d : DirId) : Vm :=
  countTo (fun i x =>
    let r := x.table.regions i
    if !r.used then x else (x.doMunmap d (r.base * pageSize) (r.pages * pageSize)).2) maxRegions x

end Vm

end CactKernel.Memory
