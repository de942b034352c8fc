import Mathlib.Tactic.Ring

/-! # The block device table

`blkdev.c`: one static table holds the disks and their partitions, a pointer to a
device is its slot, and a partition hands its sectors on to the disk it points
to. A controller is named by a number; `media` is what its sectors hold and
`log` the calls of its two callbacks, the latest first. -/

set_option autoImplicit false

namespace CactKernel.Block

def blkdevNameMax : Nat := 16
def blkdevMaxDisks : Nat := 8
def blkdevPartsPerDisk : Nat := 16
def blkdevSlots : Nat := blkdevMaxDisks * (1 + blkdevPartsPerDisk)

/-- A buffer seen from its first byte. -/
abbrev Bytes := Nat → UInt8

def Bytes.zero : Bytes := fun _ => 0

/-- `memcpy(dst + at, src, len)`. -/
def Bytes.copy (dst : Bytes) (start len : Nat) (src : Bytes) : Bytes := fun i =>
  if start ≤ i ∧ i < start + len then src (i - start) else dst i

inductive PartTable
  | none
  | mbr
  | gpt
deriving DecidableEq

/-- `blkdev_t`; `controller` stands for the two callbacks. -/
structure Device where
  name : List Char
  maxLba : UInt32
  parent : Option Nat
  startLba : UInt32
  partNo : UInt32
  table : PartTable
  ptype : UInt8
  devfsRegistered : Bool
  controller : Option Nat
deriving DecidableEq

def Device.zero : Device := ⟨[], 0, none, 0, 0, .none, 0, false, none⟩

structure Access where
  controller : Nat
  lba : UInt32
  write : Bool
deriving DecidableEq

structure Blk where
  devices : Nat → Device
  used : Nat → Bool
  bootDev : Option Nat
  media : Nat → UInt32 → Bytes
  log : List Access
  /-- The names of `/dev` and the device a block node translates to. -/
  devfs : List (List Char × Option Nat)

namespace Blk

def setDevice (b : Blk) (i : Nat) (used : Bool) (d : Device) : Blk :=
  { b with devices := Function.update b.devices i d, used := Function.update b.used i used }

def touch (b : Blk) (a : Access) : Blk := { b with log := a :: b.log }

def allocSlot (b : Blk) : Option Nat := (List.range blkdevSlots).find? fun i => !b.used i

def blkdevFind (b : Blk) (name : List Char) : Option Nat :=
  (List.range blkdevSlots).find? fun i => b.used i && (b.devices i).name = name

def blkdevById (b : Blk) (id : Nat) : Option Nat :=
  if id < blkdevSlots ∧ b.used id then some id else none

def blkdevPickBoot (b : Blk) : Blk :=
  { b with
    bootDev := (List.range blkdevSlots).find? fun i => b.used i && (b.devices i).parent.isNone }

/-! ## Sector I/O -/

/-- What `blkdev_read` and `blkdev_write` share: the recursion through `parent` down to
the callback. The outer `none` is a recursion that went round in the table, the inner
one the answer `-1`. -/
def blkdevIo {α : Type} (b : Blk) (callback : Nat → UInt32 → α) :
    Nat → Nat → UInt32 → Option (Option α)
  | 0, _, _ => none
  | fuel + 1, dev, lba =>
    let d := b.devices dev
    if d.maxLba ≤ lba then some none
    else
      match d.parent with
      | none => some (d.controller.map fun c => callback c lba)
      | some disk =>
        let plba : UInt64 := d.startLba.toUInt64 + lba.toUInt64
        if plba > 0xFFFFFFFF then some none else blkdevIo b callback fuel disk plba.toUInt32

def blkdevRead (b : Blk) (dev : Nat) (lba : UInt32) : Option (Option (Bytes × Blk)) :=
  b.blkdevIo (fun c lba => (b.media c lba, b.touch ⟨c, lba, false⟩)) (blkdevSlots + 1) dev lba

def storeSector (b : Blk) (c : Nat) (lba : UInt32) (buf : Bytes) : Blk :=
  { b.touch ⟨c, lba, true⟩ with
    media := Function.update b.media c (Function.update (b.media c) lba buf) }

def blkdevWrite (b : Blk) (dev : Nat) (lba : UInt32) (buf : Bytes) : Option (Option Blk) :=
  b.blkdevIo (fun c lba => b.storeSector c lba buf) (blkdevSlots + 1) dev lba

/-- On the boot device; a sector that cannot be read is all zero. -/
def blkdevReadSector (b : Blk) (lba : UInt32) : Option (Bytes × Blk) :=
  match b.bootDev with
  | none => some (.zero, b)
  | some dev => (b.blkdevRead dev lba).map fun answer => answer.getD (.zero, b)

def blkdevWriteSector (b : Blk) (lba : UInt32) (buf : Bytes) : Option Blk :=
  match b.bootDev with
  | none => some b
  | some dev => (b.blkdevWrite dev lba buf).map fun answer => answer.getD b

/-! ## Partitions in the table -/

def isPartOf (b : Blk) (disk i : Nat) : Bool := b.used i && (b.devices i).parent = some disk

def blkdevParts (b : Blk) (disk : Nat) : List Nat :=
  (List.range blkdevSlots).filter (b.isPartOf disk)

def blkdevPartCount (b : Blk) (disk : Nat) : Nat := (b.blkdevParts disk).length

/-- The `p` after a name that ends in a digit is written without a look at the room left,
so the text can be one longer than `BLKDEV_NAME_MAX - 1`. -/
def blkdevPartitionName (disk : List Char) (partNo : UInt32) : List Char :=
  let named := disk.take (blkdevNameMax - 1)
  let out := if (disk.getLast?.any Char.isDigit) then named ++ ['p'] else named
  out ++ (Nat.toDigits 10 partNo.toNat).take (blkdevNameMax - 1 - out.length)

/-- The new device's slot. -/
def blkdevAddPartition (b : Blk) (disk : Nat) (partNo startLba lenLba : UInt32) (ptype : UInt8)
    (table : PartTable) : Option Nat × Blk :=
  let d := b.devices disk
  if d.parent.isSome ∨ partNo = 0 ∨ lenLba = 0 then (none, b)
  else if b.blkdevPartCount disk ≥ blkdevPartsPerDisk then (none, b)
  else if startLba ≥ d.maxLba ∨ lenLba > d.maxLba - startLba then (none, b)
  else
    let name := blkdevPartitionName d.name partNo
    if (b.blkdevFind name).isSome then (none, b)
    else
      match b.allocSlot with
      | none => (none, b)
      | some idx =>
        (some idx, b.setDevice idx true
          { name := name.take (blkdevNameMax - 1), maxLba := lenLba, parent := some disk,
            startLba := startLba, partNo := partNo, table := table, ptype := ptype,
            devfsRegistered := false, controller := none })

/-- Each round of the loop looks at its own slot only. -/
def blkdevClearPartitions (b : Blk) (disk : Nat) : Blk :=
  { b with
    devices := fun i => if i < blkdevSlots ∧ b.isPartOf disk i then .zero else b.devices i
    used := fun i => if i < blkdevSlots ∧ b.isPartOf disk i then false else b.used i }

end Blk

end CactKernel.Block
