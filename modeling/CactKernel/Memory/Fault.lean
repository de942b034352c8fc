import CactKernel.Memory.Paging

/-! # Page faults

`page_fault.rs` and `page_fault_map.rs`: demand pages, copy-on-write and the
growth of the user stack. The error code is what the processor reports for an
access in user mode. Swapping is left out, so a missing page is never a swapped
one. -/

set_option autoImplicit false

namespace CactKernel.Memory

open Lib

namespace Mem

/-- The entry that `vmm_map_zero` leaves. -/
def demandZero (user : Bool) : Pte := ⟨0, { demand := true, zero := true, user }⟩

def mapZeroPage (d : DirId) (v : Nat) (user : Bool) (m : Mem) : Bool × Mem :=
  match m.ensurePrivatePt d (v / 1024) user with
  | (.ok, m) => (true, m.setPte d v (demandZero user))
  | (_, m) => (false, m)

/-- `size` is in pages; the bounds are those of the saturating sums. -/
def vmmMapZero (m : Mem) (d : DirId) (v size : Nat) (user : Bool) : Bool × Mem :=
  if size = 0 then (false, m)
  else if totalPages ≤ v ∨ totalPages < v + size then (false, m)
  else countWhile (fun i m => mapZeroPage d (v + i) user m) size m

/-- Gives the writer a frame of its own. -/
def copyFrame (m : Mem) (d : DirId) (v : Nat) (old : Pte) (fl : Flags) : Bool × Mem :=
  match m.kalloc with
  | (none, m) => (false, m)
  | (some f, m) =>
    (true, ((m.fill f (m.page old.frame)).setPte d v ⟨f, fl⟩).freePage old.frame)

def vmmHandleCow (m : Mem) (d : DirId) (v : Nat) : Bool × Mem :=
  let pte := m.pteAt d v
  let fl : Flags := { pte.flags with cow := false, rw := true, present := true }
  if !pte.flags.cow then (false, m)
  else if m.pmm.pageRefGet pte.frame = 1 then (true, m.setPte d v ⟨pte.frame, fl⟩)
  else m.copyFrame d v pte fl

def growStack (m : Mem) (d : DirId) (v : Nat) : Mem :=
  match m.kalloc with
  | (none, m) => m
  | (some f, m) => (m.zeroPage f).vmmMap d v f (userFlags true)

def demandPage (m : Mem) (d : DirId) (v : Nat) (pte : Pte) : Mem :=
  match m.kalloc with
  | (none, m) => m
  | (some f, m) =>
    let m := if pte.flags.zero then m.zeroPage f else m
    m.setPte d v ⟨f, { pte.flags with demand := false, zero := false, present := true, rw := true }⟩

def absentCow (m : Mem) (d : DirId) (v : Nat) (pte : Pte) : Mem :=
  let fl : Flags := { pte.flags with cow := false, present := true, rw := true }
  if m.pmm.pageRefGet pte.frame ≤ 1 then m.setPte d v ⟨pte.frame, fl⟩
  else (m.copyFrame d v pte fl).2

def inStackWindow (v : Nat) : Bool := userStackLimit ≤ v && v < totalPages

/-- `page_fault_handler` for an access in user mode; a fault that kills the process leaves the
memory as it is. -/
def pageFault (m : Mem) (d : DirId) (v : Nat) (write : Bool) : Mem :=
  let pte := m.pteAt d v
  if pte.flags.present then
    if write then
      match (if pte.flags.cow then m.vmmHandleCow d v else (false, m)) with
      | (true, m) => m
      | (false, m) => if inStackWindow v && !pte.flags.user then m.growStack d v else m
    else if inStackWindow v && !pte.flags.user then m.growStack d v
    else m
  else if pte.flags.demand then m.demandPage d v pte
  else if pte.flags.cow then m.absentCow d v pte
  else if inStackWindow v then m.growStack d v
  else m

/-! ## Accesses of the process -/

def pdeUser (m : Mem) (d : DirId) (v : Nat) : Bool :=
  match m.dirs d with
  | none => false
  | some dir => (dir.pde (v / 1024)).user

def pdeRw (m : Mem) (d : DirId) (v : Nat) : Bool :=
  match m.dirs d with
  | none => false
  | some dir => (dir.pde (v / 1024)).rw

/-- The page is the process's own: user bit in both levels. -/
def userMapped (m : Mem) (d : DirId) (v : Nat) : Bool := m.pdeUser d v && (m.pteAt d v).holds

/-- What the processor allows in user mode. -/
def permits (m : Mem) (d : DirId) (v : Nat) (write : Bool) : Bool :=
  m.userMapped d v && (!write || (m.pdeRw d v && (m.pteAt d v).flags.rw))

def store (m : Mem) (d : DirId) (v offset : Nat) (b : UInt8) : Mem :=
  m.fill (m.pteAt d v).frame (Function.update (m.page (m.pteAt d v).frame) offset b)

end Mem

end CactKernel.Memory
