import CactKernel.Memory.Frames
import CactKernel.Lib.Loop

/-! # Page directories

`paging.rs`: the kernel's identity map, the directories of the processes and the
functions that change their entries. The static tables of the kernel are shared
by every directory until a private copy is made; a private table belongs to the
one directory entry that points at it, which is what `PDE_PRIVATE` records. -/

set_option autoImplicit false

namespace CactKernel.Memory

open Lib Function

/-! ## Entries -/

/-- The flag bits of a page-table entry that the code sets or tests. -/
structure Flags where
  present : Bool := false
  rw : Bool := false
  user : Bool := false
  pwt : Bool := false
  pcd : Bool := false
  cow : Bool := false
  demand : Bool := false
  zero : Bool := false
  deriving DecidableEq, Repr

structure Pte where
  frame : Nat
  flags : Flags
  deriving DecidableEq, Repr

def Pte.null : Pte := ⟨0, {}⟩

/-- The page belongs to the process: present with `PAGE_USER`. -/
def Pte.holds (e : Pte) : Bool := e.flags.present && e.flags.user

def userFlags (write : Bool) : Flags := { present := true, rw := write, user := true }

inductive Table
  | kernel
  | own (frame : Nat) (entries : Nat → Pte)

/-- A directory entry; every one is present from `init_paging` on. -/
structure Pde where
  user : Bool
  rw : Bool
  table : Table

structure Directory where
  frame : Nat
  pde : Nat → Pde

/-- The directory of a process and how many it had before. -/
abbrev DirId := Nat × Nat

structure Mem where
  pmm : Pmm
  page : Nat → Nat → UInt8
  kernel : Nat → Pte
  dirs : DirId → Option Directory

/-- `init_paging`: the identity map of all 4 GiB. -/
def identity (v : Nat) : Pte :=
  ⟨v, { present := true, rw := true, pwt := totalPages ≤ v, pcd := totalPages ≤ v }⟩

/-- An entry of the kernel's directory. -/
def kernelPde : Pde := ⟨false, true, .kernel⟩

def pdKernelEntries : Nat := 768

def userStackLimit : Nat := 0xBF000

def Directory.lookup (kernel : Nat → Pte) (dir : Directory) (v : Nat) : Pte :=
  match (dir.pde (v / 1024)).table with
  | .kernel => kernel v
  | .own _ entries => entries (v % 1024)

namespace Mem

def pteAt (m : Mem) (d : DirId) (v : Nat) : Pte :=
  match m.dirs d with
  | none => .null
  | some dir => dir.lookup m.kernel v

def setPde (m : Mem) (d : DirId) (i : Nat) (p : Pde) : Mem :=
  match m.dirs d with
  | none => m
  | some dir =>
    { m with dirs := update m.dirs d (some { dir with pde := update dir.pde i p }) }

/-- Writes an entry through the table that the directory points at. -/
def setPte (m : Mem) (d : DirId) (v : Nat) (e : Pte) : Mem :=
  match m.dirs d with
  | none => m
  | some dir =>
    match (dir.pde (v / 1024)).table with
    | .kernel => { m with kernel := update m.kernel v e }
    | .own f entries =>
      m.setPde d (v / 1024)
        { dir.pde (v / 1024) with table := .own f (update entries (v % 1024) e) }

def kalloc (m : Mem) : Option Nat × Mem := (m.pmm.kalloc.1, { m with pmm := m.pmm.kalloc.2 })

def freePage (m : Mem) (f : Nat) : Mem := { m with pmm := m.pmm.freePage f }

def pageRefInc (m : Mem) (f : Nat) : Mem := { m with pmm := m.pmm.pageRefInc f }

def fill (m : Mem) (f : Nat) (bytes : Nat → UInt8) : Mem :=
  { m with page := update m.page f bytes }

def zeroPage (m : Mem) (f : Nat) : Mem := m.fill f fun _ => 0

/-! ## Private tables -/

/-- `cow_page_table` and the new directory entry: the old flags, with more rights. -/
def privatise (m : Mem) (d : DirId) (i : Nat) (user rw : Bool) : Bool × Mem :=
  match m.dirs d, m.kalloc with
  | none, _ => (false, m)
  | some _, (none, m) => (false, m)
  | some dir, (some pt, m) =>
    (true, m.setPde d i
      ⟨(dir.pde i).user || user, (dir.pde i).rw || rw, .own pt fun j => m.kernel (1024 * i + j)⟩)

def widen (m : Mem) (d : DirId) (i : Nat) (user rw : Bool) : Mem :=
  match m.dirs d with
  | none => m
  | some dir =>
    m.setPde d i { dir.pde i with user := (dir.pde i).user || user, rw := (dir.pde i).rw || rw }

inductive EnsureResult
  | ok
  | kernelMmio
  | oom
  deriving DecidableEq, Repr

/-- The common part of `ensure_pde_private` and `ensure_private_pt`. -/
def ensurePrivate (m : Mem) (d : DirId) (i : Nat) (user rw : Bool) : EnsureResult × Mem :=
  match m.dirs d with
  | none => (.kernelMmio, m)
  | some dir =>
    if pdKernelEntries ≤ i then (.kernelMmio, m)
    else match (dir.pde i).table with
      | .own _ _ => (.ok, m)
      | .kernel =>
        match m.privatise d i user rw with
        | (true, m) => (.ok, m)
        | (false, m) => (.oom, m)

def ensurePdePrivate (m : Mem) (d : DirId) (i : Nat) : EnsureResult × Mem :=
  m.ensurePrivate d i true true

def ensurePrivatePt (m : Mem) (d : DirId) (i : Nat) (user : Bool) : EnsureResult × Mem :=
  m.ensurePrivate d i user false

/-! ## Mapping -/

/-- The flags as `vmm_map` completes them. -/
def mapFlags (v f : Nat) (fl : Flags) : Flags :=
  { fl with
    present := true
    rw := fl.rw || (userStackLimit ≤ v && v < totalPages && fl.user)
    pwt := fl.pwt || totalPages ≤ f
    pcd := fl.pcd || totalPages ≤ f }

/-- Replaces an entry; the frame of a copy-on-write entry is released. -/
def replacePte (m : Mem) (d : DirId) (v f : Nat) (fl : Flags) : Mem :=
  let old := m.pteAt d v
  let m := if old.flags.present && old.flags.cow && old.frame ≠ f then m.freePage old.frame else m
  m.setPte d v ⟨f, fl⟩

def vmmMap (m : Mem) (d : DirId) (v f : Nat) (flags : Flags) : Mem :=
  let fl := mapFlags v f flags
  match m.dirs d with
  | none => m
  | some dir =>
    match (dir.pde (v / 1024)).table with
    | .own _ _ => (m.widen d (v / 1024) fl.user fl.rw).replacePte d v f fl
    | .kernel =>
      -- the tables of the PCI hole stay shared with the kernel
      if totalPages ≤ v then (m.widen d (v / 1024) fl.user fl.rw).replacePte d v f fl
      else match m.privatise d (v / 1024) fl.user fl.rw with
        | (true, m) => m.replacePte d v f fl
        | (false, m) => m

/-- `vmm_get_phys`, in pages. -/
def translate (m : Mem) (d : DirId) (v : Nat) : Option Nat :=
  if (m.pteAt d v).flags.present then some (m.pteAt d v).frame else none

def syncKernelMmio (m : Mem) (d : DirId) : Mem :=
  match m.dirs d with
  | none => m
  | some dir =>
    let pde : Nat → Pde := fun i => if pdKernelEntries ≤ i then kernelPde else dir.pde i
    { m with dirs := update m.dirs d (some { dir with pde }) }

/-! ## Address spaces -/

def vmmCreateAddressSpace (m : Mem) (d : DirId) : Bool × Mem :=
  match m.kalloc with
  | (none, m) => (false, m)
  | (some f, m) =>
    (true, { m with dirs := update m.dirs d (some ⟨f, fun _ => kernelPde⟩) })

def freeEntries (m : Mem) (entries : Nat → Pte) : Mem :=
  countTo (fun j m => if (entries j).holds then m.freePage (entries j).frame else m) 1024 m

def freeTable (m : Mem) (p : Pde) : Mem :=
  match p.table with
  | .kernel => m
  | .own f entries => (m.freeEntries entries).freePage f

def vmmFreeAddressSpace (m : Mem) (d : DirId) : Mem :=
  match m.dirs d with
  | none => m
  | some dir =>
    let m := countTo (fun i m => m.freeTable (dir.pde i)) pdKernelEntries m
    { m.freePage dir.frame with dirs := update m.dirs d none }

end Mem

end CactKernel.Memory
