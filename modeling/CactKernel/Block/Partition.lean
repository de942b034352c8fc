import CactKernel.Block.Device
import CactKernel.Lib.Reach

/-! # The partition layer

`part.c`: the MBR and GPT parsers, the scan of a disk, and the byte-range I/O of a
partition's node; and the disks coming and going in `blkdev.c`, since a disk that
appears is scanned at once. -/

set_option autoImplicit false

namespace CactKernel.Block

def mbrPtableOff : Nat := 446
def mbrPartSize : Nat := 16
def mbrNparts : Nat := 4

def mbrTypeExtended : UInt8 := 0x05
def mbrTypeExtendedLba : UInt8 := 0x0F
def mbrTypeExtendedWin : UInt8 := 0x85
def mbrTypeGptProt : UInt8 := 0xEE

/-- `sizeof(gpt_hdr_t)`. -/
def gptHdrSize : UInt32 := 92

/-- `"EFI PART"`. -/
def gptSignature : List UInt8 := [0x45, 0x46, 0x49, 0x20, 0x50, 0x41, 0x52, 0x54]

/-! ## Fields on disk -/

namespace Bytes

def leNat (bytes : Bytes) (off : Nat) : Nat → Nat
  | 0 => 0
  | n + 1 => (bytes off).toNat + 256 * bytes.leNat (off + 1) n

def le32 (bytes : Bytes) (off : Nat) : UInt32 := .ofNat (bytes.leNat off 4)
def le64 (bytes : Bytes) (off : Nat) : UInt64 := .ofNat (bytes.leNat off 8)

/-- `mem_eq` with a text. -/
def startsWith (bytes : Bytes) (text : List UInt8) : Bool :=
  (List.range text.length).map bytes = text

def allZero16 (bytes : Bytes) : Bool := (List.range 16).all fun i => bytes i = 0

def drop (bytes : Bytes) (n : Nat) : Bytes := fun i => bytes (n + i)

end Bytes

structure MbrPart where
  type : UInt8
  lbaStart : UInt32
  lbaLen : UInt32

def MbrPart.ofBytes (e : Bytes) : MbrPart := ⟨e 4, e.le32 8, e.le32 12⟩

structure GptHdr where
  headerSize : UInt32
  entriesLba : UInt64
  numEntries : UInt32
  entrySize : UInt32

def GptHdr.ofBytes (e : Bytes) : GptHdr := ⟨e.le32 12, e.le64 72, e.le32 80, e.le32 84⟩

structure GptEntry where
  typeGuid : Bytes
  firstLba : UInt64
  lastLba : UInt64

def GptEntry.ofBytes (e : Bytes) : GptEntry := ⟨e, e.le64 32, e.le64 40⟩

def mbrTypeIsExtended (t : UInt8) : Bool :=
  t = mbrTypeExtended || t = mbrTypeExtendedLba || t = mbrTypeExtendedWin

/-- What a scan finds out from the heap: whether the entry buffer and each node of `/dev` is
allocated, and the bytes behind the entry buffer, which a short entry size lets it read. -/
structure Heap where
  entryBuf : Bool
  devfsEntry : Nat → Bool
  beyond : Bytes

namespace Blk

/-! ## Registration and teardown -/

def registerChrdev (b : Blk) (name : List Char) (priv : Option Nat) (heap : Bool) : Bool × Blk :=
  if b.devfs.any fun e => e.1 = name then (false, b)
  else if heap then (true, { b with devfs := (name, priv) :: b.devfs })
  else (false, b)

def unregisterChrdev (b : Blk) (name : List Char) : Blk :=
  { b with devfs := b.devfs.eraseP fun e => e.1 = name }

def setDevfsRegistered (b : Blk) (p : Nat) (flag : Bool) : Blk :=
  { b with
    devices := Function.update b.devices p { b.devices p with devfsRegistered := flag } }

def partDevfsAdd (b : Blk) (p : Nat) (heap : Bool) : Blk :=
  if (b.devices p).devfsRegistered then b
  else
    match b.registerChrdev (b.devices p).name (some p) heap with
    | (true, b) => b.setDevfsRegistered p true
    | (false, b) => b

def partDevfsRemove (b : Blk) (p : Nat) : Blk :=
  if (b.devices p).devfsRegistered then
    (b.unregisterChrdev (b.devices p).name).setDevfsRegistered p false
  else b

def partDropDisk (b : Blk) (disk : Nat) : Blk :=
  ((b.blkdevParts disk).foldl partDevfsRemove b).blkdevClearPartitions disk

def partCreate (b : Blk) (disk : Nat) (partNo : UInt32) (startLba lenLba : UInt64)
    (ptype : UInt8) (table : PartTable) (heap : Bool) : Bool × Blk :=
  if startLba > 0xFFFFFFFF ∨ lenLba > 0xFFFFFFFF then (false, b)
  else
    match b.blkdevAddPartition disk partNo startLba.toUInt32 lenLba.toUInt32 ptype table with
    | (none, b) => (false, b)
    | (some p, b) => (true, b.partDevfsAdd p heap)

/-! ## The two labels -/

/-- The count of partitions found and the table. -/
abbrev Found := Nat × Blk

def count (found : Nat) : Bool × Blk → Found
  | (true, b) => (found + 1, b)
  | (false, b) => (found, b)

def parseMbrEntry (disk : Nat) (lba0 : Bytes) (heap : Heap) (f : Found) (i : Nat) : Found :=
  let pe := MbrPart.ofBytes (lba0.drop (mbrPtableOff + i * mbrPartSize))
  if pe.type = 0 ∨ pe.lbaStart = 0 ∨ pe.lbaLen = 0 then f
  else if mbrTypeIsExtended pe.type ∨ pe.type = mbrTypeGptProt then f
  else count f.1 (f.2.partCreate disk (.ofNat (i + 1)) pe.lbaStart.toUInt64 pe.lbaLen.toUInt64
    pe.type .mbr (heap.devfsEntry i))

def partParseMbr (b : Blk) (disk : Nat) (lba0 : Bytes) (heap : Heap) : Found :=
  (List.range mbrNparts).foldl (parseMbrEntry disk lba0 heap) (0, b)

/-- The loop that fills the entry buffer; every round but the last takes a whole sector. -/
def readEntries (disk : Nat) (need : Nat) :
    Nat → Nat → UInt32 → Bytes → Blk → Option (Bytes × Blk)
  | 0, _, _, _, _ => none
  | rounds + 1, got, cur, buf, b =>
    if got < need ∧ cur < (b.devices disk).maxLba then
      match b.blkdevRead disk cur with
      | none => none
      | some none => some (buf, b)
      | some (some (sec, b)) =>
        let take := min (need - got) 512
        readEntries disk need rounds (got + take) (cur + 1) (buf.copy got take sec) b
    else some (buf, b)

def parseGptEntry (disk : Nat) (entryBuf : Bytes) (entrySize : Nat) (heap : Heap) (f : Found)
    (i : Nat) : Found :=
  let ge := GptEntry.ofBytes (entryBuf.drop (i * entrySize))
  if ge.typeGuid.allZero16 then f
  else if ge.firstLba = 0 ∨ ge.lastLba < ge.firstLba then f
  else
    let len := ge.lastLba - ge.firstLba + 1
    count f.1 (f.2.partCreate disk (.ofNat (i + 1)) ge.firstLba len 0 .gpt (heap.devfsEntry i))

def partParseGpt (b : Blk) (disk : Nat) (lba1 : Bytes) (heap : Heap) : Option Found :=
  let hdr := GptHdr.ofBytes lba1
  if hdr.headerSize < gptHdrSize ∨ hdr.headerSize > 512 then some (0, b)
  else if hdr.numEntries = 0 ∨ hdr.numEntries > 128 then some (0, b)
  else if hdr.entrySize = 0 ∨ hdr.entrySize > 512 then some (0, b)
  else if hdr.entriesLba > 0xFFFFFFFF ∨ hdr.entriesLba = 0 then some (0, b)
  else
    let count := min hdr.numEntries.toNat blkdevPartsPerDisk
    let need := count * hdr.entrySize.toNat
    if heap.entryBuf then do
      let empty : Bytes := heap.beyond.copy 0 need .zero
      let (entryBuf, b) ← readEntries disk need (need + 1) 0 hdr.entriesLba.toUInt32 empty b
      some ((List.range count).foldl (parseGptEntry disk entryBuf hdr.entrySize.toNat heap) (0, b))
    else some (0, b)

def setTable (b : Blk) (disk : Nat) (table : PartTable) : Blk :=
  { b with devices := Function.update b.devices disk { b.devices disk with table := table } }

/-- The scan past the reads of the first two sectors. -/
def partScanLabel (b : Blk) (disk : Nat) (lba0 lba1 : Bytes) (heap : Heap) :
    Option (Int × Blk) :=
  let b := b.setTable disk .none
  if lba1.startsWith gptSignature then do
    let (found, b) ← b.partParseGpt disk lba1 heap
    some (found, b.setTable disk .gpt)
  else if lba0 510 = 0x55 ∧ lba0 511 = 0xAA then
    let (found, b) := b.partParseMbr disk lba0 heap
    some (found, b.setTable disk .mbr)
  else some (0, b)

def partScanDisk (b : Blk) (disk : Nat) (heap : Heap) : Option (Int × Blk) :=
  if (b.devices disk).parent.isSome then some (-1, b)
  else if (b.devices disk).maxLba < 2 then some (0, b)
  else
    let b := b.partDropDisk disk
    match b.blkdevRead disk 0 with
    | none => none
    | some none => some (-2, b)
    | some (some (lba0, b)) =>
      match b.blkdevRead disk 1 with
      | none => none
      | some none => some (-2, b)
      | some (some (lba1, b)) => b.partScanLabel disk lba0 lba1 heap

def partRescan (b : Blk) (name : List Char) (heap : Heap) : Option (Int × Blk) :=
  match b.blkdevFind name with
  | none => some (-1, b)
  | some d => if (b.devices d).parent.isSome then some (-1, b) else b.partScanDisk d heap

def scanSlot (heap : Nat → Heap) (sofar : Int × Blk) (i : Nat) : Option (Int × Blk) :=
  match sofar.2.blkdevById i with
  | none => some sofar
  | some d =>
    if (sofar.2.devices d).parent.isSome then some sofar
    else do
      let (n, b) ← sofar.2.partScanDisk d (heap i)
      some (if n > 0 then sofar.1 + n else sofar.1, b)

def partScanAll (b : Blk) (heap : Nat → Heap) : Option (Int × Blk) :=
  (List.range blkdevSlots).foldlM (scanSlot heap) (0, b)

/-! ## Disks -/

/-- `hook` says whether `part_probe_init` ran before. -/
def registerBlkdev (b : Blk) (name : List Char) (maxLba : UInt32) (controller : Option Nat)
    (hook : Bool) (heap : Heap) : Option (Int × Blk) :=
  if name = [] ∨ controller = none then some (-1, b)
  else if (b.blkdevFind name).isSome then some (-3, b)
  else
    match b.allocSlot with
    | none => some (-2, b)
    | some idx =>
      let b := b.setDevice idx true
        { Device.zero with
          name := name.take (blkdevNameMax - 1), maxLba := maxLba, controller := controller }
      let b := { b with bootDev := b.bootDev.or (some idx) }
      if hook then (b.partScanDisk idx heap).map fun scanned => (0, scanned.2) else some (0, b)

def unregisterBlkdev (b : Blk) (name : List Char) : Blk :=
  match b.blkdevFind name with
  | none => b
  | some d =>
    if (b.devices d).parent.isSome then b
    else ((b.blkdevClearPartitions d).setDevice d false .zero).blkdevPickBoot

/-! ## Byte ranges of a partition -/

end Blk

/-- Where the loop of `part_rw` stands. -/
structure Transfer where
  blk : Blk
  buf : Bytes
  done : UInt32
  soff : UInt32

namespace Transfer

def advance (t : Transfer) (blk : Blk) (buf : Bytes) (chunk : UInt32) : Transfer :=
  ⟨blk, buf, t.done + chunk, 0⟩

/-- What a round moves: what is wanted, or what the sector has. -/
def chunk (t : Transfer) (size : UInt32) : UInt32 :=
  let want := size - t.done
  let avail := 512 - t.soff
  if want < avail then want else avail

/-- One round; `false` leaves the loop. -/
def sector (t : Transfer) (dev : Nat) (lba size : UInt32) (wr : Bool) :
    Option (Bool × Transfer) :=
  let chunk := t.chunk size
  if wr then
    if t.soff = 0 ∧ chunk = 512 then
      match t.blk.blkdevWrite dev lba (t.buf.drop t.done.toNat) with
      | none => none
      | some none => some (false, t)
      | some (some b) => some (true, t.advance b t.buf chunk)
    else
      match t.blk.blkdevRead dev lba with
      | none => none
      | some answer =>
        let (sec, b) := answer.getD (.zero, t.blk)
        match b.blkdevWrite dev lba
            (sec.copy t.soff.toNat chunk.toNat (t.buf.drop t.done.toNat)) with
        | none => none
        | some none => some (false, { t with blk := b })
        | some (some b) => some (true, t.advance b t.buf chunk)
  else
    match t.blk.blkdevRead dev lba with
    | none => none
    | some none => some (false, t)
    | some (some (sec, b)) =>
      some (true, t.advance b
        (t.buf.copy t.done.toNat chunk.toNat (sec.drop t.soff.toNat)) chunk)

def rounds (dev : Nat) (size : UInt32) (wr : Bool) : Nat → UInt32 → Transfer → Option Transfer
  | 0, _, _ => none
  | n + 1, lba, t =>
    if t.done < size then
      match t.sector dev lba size wr with
      | none => none
      | some (false, t) => some t
      | some (true, t) => rounds dev size wr n (lba + 1) t
    else some t

end Transfer

namespace Blk

/-- `part_rw`: the bytes moved are `done` of the answer. -/
def partRw (b : Blk) (dev : Nat) (off size : UInt32) (buf : Bytes) (wr : Bool) :
    Option Transfer :=
  if size = 0 then some ⟨b, buf, 0, 0⟩
  else Transfer.rounds dev size wr (size.toNat + 1) (off / 512) ⟨b, buf, 0, off % 512⟩

end Blk

/-! ## Runs -/

inductive Action
  | register (name : List Char) (maxLba : UInt32) (controller : Option Nat) (hook : Bool)
      (heap : Heap)
  | unregister (name : List Char)
  | scan (disk : Nat) (heap : Heap)
  | rescan (name : List Char) (heap : Heap)
  | scanAll (heap : Nat → Heap)
  | read (dev : Nat) (lba : UInt32)
  | write (dev : Nat) (lba : UInt32) (buf : Bytes)
  | readSector (lba : UInt32)
  | writeSector (lba : UInt32) (buf : Bytes)
  | rw (dev : Nat) (off size : UInt32) (buf : Bytes) (wr : Bool)

namespace Blk

def step (b : Blk) : Action → Option Blk
  | .register name maxLba controller hook heap =>
    (b.registerBlkdev name maxLba controller hook heap).map Prod.snd
  | .unregister name => some (b.unregisterBlkdev name)
  | .scan disk heap => (b.partScanDisk disk heap).map Prod.snd
  | .rescan name heap => (b.partRescan name heap).map Prod.snd
  | .scanAll heap => (b.partScanAll heap).map Prod.snd
  | .read dev lba => (b.blkdevRead dev lba).map fun answer => (answer.map Prod.snd).getD b
  | .write dev lba buf => (b.blkdevWrite dev lba buf).map fun answer => answer.getD b
  | .readSector lba => (b.blkdevReadSector lba).map Prod.snd
  | .writeSector lba buf => b.blkdevWriteSector lba buf
  | .rw dev off size buf wr => (b.partRw dev off size buf wr).map Transfer.blk

end Blk

/-- After `blkdev_init`: no devices; what the sectors hold and what `/dev` lists is open. -/
def Initial (b : Blk) : Prop :=
  b.devices = (fun _ => .zero) ∧ b.used = (fun _ => false) ∧ b.bootDev = none

def Step (b : Blk) (a : Action) (b' : Blk) : Prop := b.step a = some b'

end CactKernel.Block
