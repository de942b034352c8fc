import Mathlib.Tactic.Ring

/-! # Physical frames

The bitmap, the reference counts and the first-fit hint of `pmm.rs`. A physical
page is named by its frame number. Arithmetic on addresses is in pages wherever
the code keeps them page aligned. -/

set_option autoImplicit false

namespace CactKernel.Memory

open Function

def pageSize : Nat := 4096

/-- Pages of the 32-bit address space. -/
def addressPages : Nat := 2 ^ 20

/-- `PCI_HOLE_START`, `KERNEL_BASE` and `USER_STACK_TOP`. -/
def pciHoleStart : Nat := 0xC0000000

def totalPages : Nat := 0xC0000

/-- `RESERVED_END`, which is also `HEAP_START`. -/
def reservedPages : Nat := 0x2000

def heapEndPage : Nat := 0x3000

/-- `u32` arithmetic on page-aligned addresses. -/
def wrapPage (v : Nat) : Nat := v % 2 ^ 20

/-- The pages of a byte length, after `(length + PAGE_SIZE - 1) & !(PAGE_SIZE - 1)` on `u32`. -/
def pagesOf (length : Nat) : Nat := (length + 4095) % 2 ^ 32 / 4096

/-! ## The boot memory map -/

/-- `Mb2MmapFlat`. -/
structure MmapEntry where
  base : Nat
  len : Nat
  ty : Nat
  deriving DecidableEq, Repr

def saturateU64 (n : Nat) : Nat := min n (2 ^ 64 - 1)

/-- The entry as `pmm_init_from_mmap` stores it. -/
def MmapEntry.clip (e : MmapEntry) : MmapEntry :=
  if e.len = 0 then e
  else if pciHoleStart ≤ e.base then { e with len := 0 }
  else if pciHoleStart < saturateU64 (e.base + e.len) then { e with len := pciHoleStart - e.base }
  else e

/-- The pages that `init_memory_manager` marks free for an entry. -/
def MmapEntry.frees (e : MmapEntry) (f : Nat) : Bool :=
  let clipEnd := min (saturateU64 (e.base + e.len)) pciHoleStart
  e.ty = 1 && e.len ≠ 0 && e.base < clipEnd && (e.base + 4095) / 4096 ≤ f &&
    f < clipEnd / 4096 && f < totalPages

/-- Without a map all RAM above the reserved area is taken as present. -/
def available (map : List MmapEntry) (f : Nat) : Bool :=
  if map.isEmpty then reservedPages ≤ f && f < totalPages
  else (map.take 128).any fun e => e.clip.frees f

structure Pmm where
  used : Nat → Bool
  refs : Nat → Nat
  hint : Nat
  /-- Ghost: an allocation has failed. -/
  exhausted : Bool
  /-- Ghost: a reference count has met its `u16` limit. -/
  saturated : Bool

def initMemoryManager (map : List MmapEntry) : Pmm where
  used f := !available map f || f < reservedPages || (reservedPages ≤ f && f < heapEndPage)
  refs _ := 0
  hint := heapEndPage
  exhausted := false
  saturated := false

namespace Pmm

/-! ## Allocation -/

def scan (used : Nat → Bool) : Nat → Nat → Option Nat
  | 0, _ => none
  | n + 1, i => if used i then scan used n (i + 1) else some i

/-- The reclaim rounds (swapping, the OOM killer) are taken to fail. -/
def kalloc (pm : Pmm) : Option Nat × Pmm :=
  match scan pm.used (totalPages - pm.hint) pm.hint with
  | some f =>
    (some f, { pm with
      used := update pm.used f true
      refs := update pm.refs f 1
      hint := f + 1 })
  | none => (none, { pm with exhausted := true })

/-- Frames that `free_page` hands back. -/
def Managed (f : Nat) : Prop :=
  f < totalPages ∧ reservedPages ≤ f ∧ ¬ (reservedPages ≤ f ∧ f < heapEndPage)

instance (f : Nat) : Decidable (Managed f) := by unfold Managed; infer_instance

def freePage (pm : Pmm) (f : Nat) : Pmm :=
  if ¬ Managed f then pm
  else if 1 < pm.refs f then { pm with refs := update pm.refs f (pm.refs f - 1) }
  else { pm with
    refs := update pm.refs f 0
    used := update pm.used f false
    hint := min pm.hint f }

/-- The `u16` count saturates. -/
def pageRefInc (pm : Pmm) (f : Nat) : Pmm :=
  if f < reservedPages ∨ totalPages ≤ f then pm
  else if pm.refs f < 65535 then { pm with refs := update pm.refs f (pm.refs f + 1) }
  else { pm with saturated := true }

def pageRefGet (pm : Pmm) (f : Nat) : Nat :=
  if f < reservedPages ∨ totalPages ≤ f then 0 else pm.refs f

end Pmm

end CactKernel.Memory
