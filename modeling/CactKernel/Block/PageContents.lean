import CactKernel.Block.PageRuns

/-! # What the pages and the disk hold

A sector is the list of the modifications that were made to it, the latest first, so that
what a copy of it contains can be told from the copy. Tasks modify the buffers that
`pc_get_page` has returned, and the loop of `_writeback` writes one sector at a time.

The devices are apart from each other, and every device has one block size. -/

set_option autoImplicit false

namespace CactKernel.PageCache

open Lib Function

structure Disks where
  /-- `max_lba` of the registered devices. -/
  maxLba : UInt32 → Option Nat
  /-- `blkdev_get_boot`. -/
  boot : Option UInt32
  /-- The block size of a device. -/
  size : UInt32 → UInt32

namespace Disks

/-- Where `pc_get_page` reads from. -/
def source (disks : Disks) (dev : UInt32) : Option UInt32 :=
  if (disks.maxLba dev).isSome then some dev else disks.boot

def bound (disks : Disks) (dev : UInt32) : Option Nat := (disks.source dev).bind disks.maxLba

def registered (disks : Disks) (dev : UInt32) : Bool := (disks.maxLba dev).isSome

end Disks

def sectorsOf (size : UInt32) : Nat := size.toNat / 512

/-- The sectors of a block. -/
def Disks.sectors (disks : Disks) (k : Key) : Nat := sectorsOf (disks.size k.dev)

/-- `block_no * spb + i`. -/
def lbaOf (k : Key) (size : UInt32) (n : Nat) : UInt32 := k.blockNo * (size / 512) + UInt32.ofNat n

namespace Page

def sectors (x : Page) : Nat := sectorsOf x.blockSize

def lba (x : Page) (n : Nat) : UInt32 := lbaOf x.key x.blockSize n

end Page

/-- A call of `pc_mark_dirty` and what the page held when it was made. -/
structure Call (α : Type) where
  task : Nat
  key : Key
  seen : Nat → List α
  returned : Bool

structure Store (α : Type) where
  world : World
  /-- The sectors of the buffers. -/
  buffer : Nat → Nat → List α
  disk : UInt32 → UInt32 → List α
  /-- The sectors that the write-back of a task has written. -/
  written : Nat → Nat
  /-- The calls so far, also those for pages that have left the cache. -/
  calls : List (Call α)

inductive Act (α : Type)
  | op (op : Op)
  | modify (k : Key) (n : Nat) (a : α)
  /-- The next round of the loop of `_writeback`. -/
  | sector

namespace Store

variable {α : Type} (disks : Disks)

def page (s : Store α) (p : Nat) : Page := s.world.cache.page p

/-- `blkdev_write`. -/
def write (s : Store α) (dev lba : UInt32) (x : List α) : Store α :=
  { s with disk := update s.disk dev (update (s.disk dev) lba x) }

/-- The loop of `_writeback` is over, or is not reached. -/
def loopDone (s : Store α) (i p : Nat) : Bool :=
  (s.page p).data.isNone || !disks.registered (s.page p).key.dev ||
    (s.page p).sectors ≤ s.written i

def writeNext (s : Store α) (i p b : Nat) : Store α :=
  let n := s.written i
  { s.write (s.page p).key.dev ((s.page p).lba n) (s.buffer b n) with
    written := update s.written i (n + 1) }

/-- `_writeback` by `_evict_one`, which has the lock. -/
def writeAll (s : Store α) (p : Nat) : Store α :=
  let x := s.page p
  match x.data with
  | some b =>
    if x.dirty && disks.registered x.key.dev then
      (List.range x.sectors).foldl (fun s n => s.write x.key.dev (x.lba n) (s.buffer b n)) s
    else s
  | none => s

/-- `memory_set` and the reads of `pc_get_page`. -/
def read (s : Store α) (k : Key) (size : UInt32) (b : Nat) : Store α :=
  { s with
    buffer := update s.buffer b fun n =>
      match disks.source k.dev with
      | some dev => s.disk dev (lbaOf k size n)
      | none => [] }

/-- A device has one block size, and a write-back goes on after its last sector. -/
def allowed (s : Store α) (i : Nat) (t : Task) : Op → Bool
  | .get k size => size = disks.size k.dev
  | .go _ =>
    match t.pc with
    | .writeback p .writing _ => s.loopDone disks i p
    | _ => true
  | _ => true

/-- What an operation does to the buffers, to the disk and to the calls. -/
def effect (s : Store α) (i : Nat) (t : Task) : Op → Store α
  | .markDirty k =>
    match s.world.cache.hashFind k with
    | some (some p) =>
      let seen := match (s.page p).data with
        | some b => s.buffer b
        | none => fun _ => []
      { s with calls := ⟨i, k, seen, false⟩ :: s.calls }
    | _ => s
  | .go buffer =>
    match t.pc with
    | .missed _ _ =>
      match s.world.cache.allocPage with
      | some (some p, _) => if (s.page p).used then s.writeAll disks p else s
      | _ => s
    | .slot k p =>
      match (s.page p).data <|> buffer with
      | some b => s.read disks k (s.page p).blockSize b
      | none => s
    | .writeback _ .opened _ => { s with written := update s.written i 0 }
    | .writeback _ .written .done =>
      { s with calls := s.calls.map fun c => if c.task = i then { c with returned := true } else c }
    | _ => s
  | _ => s

def step (s : Store α) (i : Nat) (act : Act α) : Option (Store α) :=
  s.world.tasks[i]?.bind fun t =>
    match act with
    | .op op =>
      if s.allowed disks i t op then
        (s.world.step disks.bound i op).map fun w => { s.effect disks i t op with world := w }
      else none
    | .modify k n a =>
      if t.pc = .idle && n < sectorsOf (disks.size k.dev) then
        (t.held.find? fun x => x.1 = k).map fun x =>
          { s with
            buffer := update s.buffer x.2
              (update (s.buffer x.2) n (a :: s.buffer x.2 n)) }
      else none
    | .sector =>
      match t.pc with
      | .writeback p .writing _ =>
        if s.loopDone disks i p then none else (s.page p).data.map (s.writeNext i p)
      | _ => none

/-- The disks as they are found, with no page in the cache. -/
def start (tasks : Nat) (live : Nat → Bool) : Store α where
  world := .start tasks live
  buffer := fun _ _ => []
  disk := fun _ _ => []
  written := fun _ => 0
  calls := []

def Reachable (tasks : Nat) (live : Nat → Bool) : Store α → Prop :=
  Reach (fun s => s = start tasks live) fun s (a : Nat × Act α) s' => s.step disks a.1 a.2 = some s'

/-- Sector `n` of a block on its disk. -/
def block (s : Store α) (k : Key) (n : Nat) : List α := s.disk k.dev (lbaOf k (disks.size k.dev) n)

/-- The disk has what the page held when the call was made. -/
def OnDisk (s : Store α) (c : Call α) : Prop :=
  ∀ n, n < disks.sectors c.key → c.seen n <:+ s.block disks c.key n

/-- The block is cached, and its page is dirty. -/
def Flagged (s : Store α) (k : Key) : Prop :=
  ∃ p, (s.page p).valid = true ∧ (s.page p).key = k ∧ (s.page p).dirty = true

end Store

end CactKernel.PageCache
