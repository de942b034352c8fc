import CactKernel.Lib.AccessProgram
import CactKernel.Lib.Tiling
import CactKernel.Lib.Reach

/-! # The kernel heap

`heap.rs`: a list of blocks through their headers in the fixed window of 16 MiB.
The memory is the byte memory of the kernel, so the headers, the canaries and what
the callers write lie in one place. A loop over the list runs on fuel; `none` means
that it does not end. -/

set_option autoImplicit false

namespace CactKernel.Heap

open Lib Lib.Program

def heapStart : Nat := 0x02000000

def heapSize : Nat := 0x01000000

def heapEnd : Nat := heapStart + heapSize

def heapMagic : Nat := 0xDEADBEEF

def tailMagic : Nat := 0xC0DEC0DE

/-- `size_of::<HeapBlock>()`. -/
def headerSize : Nat := 16

/-- More rounds than the window has room for headers. -/
def rounds : Nat := heapSize / headerSize + 1

/-! ## Headers -/

def magicAt (mem : Memory) (block : Nat) : Nat := load32 mem block

def sizeAt (mem : Memory) (block : Nat) : Nat := load32 mem (block + 4)

def freeAt (mem : Memory) (block : Nat) : Nat := load32 mem (block + 8)

def nextAt (mem : Memory) (block : Nat) : Nat := load32 mem (block + 12)

def writeHeader (mem : Memory) (block size free next : Nat) : Memory :=
  store32 (store32 (store32 (store32 mem block heapMagic) (block + 4) size) (block + 8) free)
    (block + 12) next

def heapAddrInRange (addr : Nat) : Bool := heapStart ≤ addr && addr < heapEnd

def initHeap (mem : Memory) : Memory := writeHeader mem heapStart (heapSize - headerSize) 1 0

/-! ## Allocation -/

def alignUp8 (n : Nat) : Nat := (n + 7) % 2 ^ 32 / 8 * 8

/-- The walk of `kmalloc`; `some none` is a header without the magic. -/
def bestFit (mem : Memory) (size : Nat) : Nat → Nat → Nat → Option (Option Nat)
  | 0, _, _ => none
  | fuel + 1, current, best =>
    if current = 0 then some (some best)
    else if magicAt mem current ≠ heapMagic then some none
    else
      let bestSize := if best = 0 then 2 ^ 32 - 1 else sizeAt mem best
      let better :=
        freeAt mem current ≠ 0 ∧ size ≤ sizeAt mem current ∧ sizeAt mem current < bestSize
      bestFit mem size fuel (nextAt mem current) (if better then current else best)

/-- Cuts what is not needed off the block. -/
def splitBlock (mem : Memory) (best size : Nat) : Memory :=
  if size + headerSize + 8 ≤ sizeAt mem best then
    let next := best + headerSize + size
    let mem := writeHeader mem next (sizeAt mem best - size - headerSize) 1 (nextAt mem best)
    store32 (store32 mem (best + 4) size) (best + 12) next
  else mem

/-- Takes the block and writes its canary. -/
def takeBlock (mem : Memory) (best size : Nat) : Memory :=
  let mem := store32 (splitBlock mem best size) (best + 8) 0
  store32 mem (best + headerSize + sizeAt mem best - 4) tailMagic

/-- The pointer, 0 for a failure, and the memory. -/
def kmalloc (mem : Memory) (size : Nat) : Option (Nat × Memory) :=
  if size = 0 then some (0, mem)
  else
    let size := alignUp8 (alignUp8 size + 4)
    match bestFit mem size rounds heapStart 0 with
    | none => none
    | some none => some (0, mem)
    | some (some best) =>
      if best = 0 then some (0, mem) else some (best + headerSize, takeBlock mem best size)

/-- The alignment is a power of two, so the mask rounds down; the pointer of the block is kept
below the one that is returned. -/
def kmallocAligned (mem : Memory) (size align : Nat) : Option (Nat × Memory) :=
  let align := if align < 4 then 4 else align
  (kmalloc mem ((size + align + 4) % 2 ^ 32)).map fun (raw, mem) =>
    if raw = 0 then (0, mem)
    else
      let aligned := (raw + 4 + align - 1) % 2 ^ 32 / align * align
      (aligned, store32 mem (aligned - 4) raw)

/-! ## Release -/

/-- The block is still linked; a list that leaves the window or lacks a magic counts as no. -/
def linked (mem : Memory) (block : Nat) : Nat → Nat → Option Bool
  | 0, _ => none
  | fuel + 1, walk =>
    if walk = 0 then some false
    else if !heapAddrInRange walk then some false
    else if magicAt mem walk ≠ heapMagic then some false
    else if walk = block then some true
    else linked mem block fuel (nextAt mem walk)

/-- Takes the free neighbour `next` into the free block `current`. -/
def joinNext (mem : Memory) (current next : Nat) : Memory :=
  let size := sizeAt mem next
  let nextNext := nextAt mem next
  let mem := store32 mem next 0
  let mem := store32 mem (current + 4) (sizeAt mem current + (size + headerSize))
  store32 mem (current + 12) nextNext

def coalesceWalk : Nat → Nat → Memory → Option Memory
  | 0, _, _ => none
  | fuel + 1, current, mem =>
    if current = 0 then some mem
    else if magicAt mem current ≠ heapMagic then some mem
    else
      let next := nextAt mem current
      if freeAt mem current ≠ 0 ∧ next ≠ 0 then
        if magicAt mem next ≠ heapMagic then some mem
        else if freeAt mem next ≠ 0 then coalesceWalk fuel current (joinNext mem current next)
        else coalesceWalk fuel next mem
      else coalesceWalk fuel next mem

def kfreeImpl (mem : Memory) (ptr : Nat) : Option Memory :=
  let block := ptr - headerSize
  if ptr = 0 ∨ !heapAddrInRange block then some mem
  else match linked mem block rounds heapStart with
    | none => none
    | some false => some mem
    | some true =>
      let size := sizeAt mem block
      if magicAt mem block ≠ heapMagic ∨ size < 4 ∨ load32 mem (ptr + size - 4) ≠ tailMagic ∨
          freeAt mem block ≠ 0 then some mem
      else coalesceWalk rounds heapStart (store32 mem (block + 8) 1)

def kfree (mem : Memory) (ptr : Nat) : Option Memory :=
  let block := ptr - headerSize
  if ptr = 0 then some mem
  else if heapAddrInRange block ∧ magicAt mem block = heapMagic then kfreeImpl mem ptr
  else
    -- `kmalloc_aligned` keeps the first pointer below the one it returns
    let raw := load32 mem ((ptr + 2 ^ 32 - 4) % 2 ^ 32)
    if heapAddrInRange raw ∧ magicAt mem (raw - headerSize) = heapMagic then kfreeImpl mem raw
    else some mem

/-! ## Callers -/

/-- The heap with the pointers that are allocated and the sizes asked for. -/
structure State where
  mem : Memory
  live : Nat → Option Nat

inductive Action
  | kmalloc (size : Nat)
  | kfree (ptr : Nat)
  /-- The caller writes byte `i` of what it was given. -/
  | write (ptr i : Nat) (b : UInt8)

def boot (mem : Memory) : State := ⟨initHeap mem, fun _ => none⟩

def step (s : State) : Action → Option State
  | .kmalloc size =>
    if 0 < size ∧ size ≤ heapSize then
      (kmalloc s.mem size).map fun r =>
        if r.1 = 0 then { s with mem := r.2 }
        else ⟨r.2, Function.update s.live r.1 (some size)⟩
    else none
  | .kfree ptr =>
    if (s.live ptr).isSome then
      (kfree s.mem ptr).map fun mem => ⟨mem, Function.update s.live ptr none⟩
    else none
  | .write ptr i b =>
    match s.live ptr with
    | none => none
    | some size =>
      if i < size then some { s with mem := Function.update s.mem (ptr + i) b } else none

end CactKernel.Heap
