import CactKernel.Lib.Bytes
import CactKernel.Lib.CLayout
import CactKernel.Lib.Crc32

/-! # Signing a cctkfs archive

`tools/cact_sign_cctkfs.py`: the tool reads an archive of modules, appends to every
module its HMAC-SHA256 unless it ends in it already, and writes the archive anew with
aligned modules and a CRC-32. The HMAC is a function `mac`; `none` is an exit with an
error or an exception. -/

set_option autoImplicit false

namespace CactKernel.Initfs

open Lib Lib.Bytes

def cctkfsMagic : Nat := 0x53464B43
def cctkfsCksumOff : Nat := 28
def tagSize : Nat := 32
def headerSize : Nat := 32
def entrySize : Nat := 24
def nameAlign : Nat := 8
def dataAlign : Nat := 16

def crc32Poly : BitVec 32 := 0xEDB88320#32

/-- `zlib.crc32`. -/
def crc32 (data : List UInt8) : BitVec 32 :=
  data.foldl (fun crc byte => Crc32.byteStep crc32Poly crc (BitVec.ofNat 32 byte.toNat))
    0xFFFFFFFF#32 ^^^ 0xFFFFFFFF#32

/-- Number `k` of the little-endian words from `off` on. -/
def wordAt (img : List UInt8) (off k : Nat) : Nat := decode (slice img (off + 4 * k) 4)

def words (values : List Nat) : List UInt8 := values.flatMap (encode 4)

/-- `struct.pack_into("<I", data, off, value)`. -/
def packInto (data : List UInt8) (off value : Nat) : List UInt8 :=
  data.take off ++ encode 4 value ++ data.drop (off + 4)

def setChecksum (data : List UInt8) : List UInt8 :=
  let zeroed := packInto data cctkfsCksumOff 0
  packInto zeroed cctkfsCksumOff (crc32 zeroed).toNat

structure Entry where
  nameOff : Nat
  nameLen : Nat
  dataOff : Nat
  dataSize : Nat
  flags : Nat
deriving DecidableEq

/-- `struct.unpack_from` refuses to read past the end. -/
def readEntry (img : List UInt8) (entriesOff i : Nat) : Option Entry :=
  let off := entriesOff + i * entrySize
  if off + entrySize ≤ img.length then
    some ⟨wordAt img off 0, wordAt img off 1, wordAt img off 2, wordAt img off 3, wordAt img off 4⟩
  else none

def alreadySigned (mac : List UInt8 → List UInt8) (blob : List UInt8) : Prop :=
  tagSize ≤ blob.length ∧
    mac (blob.take (blob.length - tagSize)) = blob.drop (blob.length - tagSize)

instance (mac : List UInt8 → List UInt8) (blob : List UInt8) :
    Decidable (alreadySigned mac blob) :=
  inferInstanceAs (Decidable (_ ∧ _))

def signBlob (mac : List UInt8 → List UInt8) (blob : List UInt8) : List UInt8 :=
  if alreadySigned mac blob then blob else blob ++ mac blob

/-- The table of entries, the first module being placed at `cur`. -/
def packEntries : Nat → List (Entry × List UInt8) → List UInt8
  | _, [] => []
  | cur, (e, blob) :: rest =>
    words [e.nameOff, e.nameLen, cur, blob.length, e.flags, 0] ++
      packEntries (alignUp (cur + blob.length) dataAlign) rest

/-- Zeros up to the alignment of modules. -/
def padded (out : List UInt8) : List UInt8 :=
  out ++ List.replicate (alignUp out.length dataAlign - out.length) 0

def appendBlobs (out : List UInt8) (blobs : List (List UInt8)) : List UInt8 :=
  blobs.foldl (fun out blob => padded (out ++ blob)) out

/-- The new archive before its size and its checksum are filled in. -/
def layOut (entries : List Entry) (namesSize : Nat) (nameBlob : List UInt8)
    (blobs : List (List UInt8)) : List UInt8 :=
  let count := entries.length
  let newNamesOff := alignUp (headerSize + count * entrySize) nameAlign
  let newDataOff := alignUp (newNamesOff + namesSize) dataAlign
  let header := words [cctkfsMagic, 1, 0, count, headerSize, newNamesOff, namesSize, 0]
  let out := header ++ packEntries newDataOff (entries.zip blobs)
  appendBlobs (padded (out ++ nameBlob)) blobs

/-- The size and the checksum; `struct.pack` refuses numbers that do not fit in a word, of which
the size is the largest. -/
def finish (out : List UInt8) : Option (List UInt8) :=
  if out.length < 2 ^ 32 then some (setChecksum (packInto out 8 out.length)) else none

/-- What the tool reads: the entries, the names and the modules. -/
def readArchive (img : List UInt8) :
    Option (List Entry × List UInt8 × List (List UInt8)) :=
  if img.length < headerSize then none
  else if wordAt img 0 0 ≠ cctkfsMagic then none
  else do
    let entries ← (List.range (wordAt img 0 3)).mapM (readEntry img (wordAt img 0 4))
    some (entries, slice img (wordAt img 0 5) (wordAt img 0 6),
      entries.map fun e => slice img e.dataOff e.dataSize)

def sign (mac : List UInt8 → List UInt8) (img : List UInt8) : Option (List UInt8) := do
  let (entries, nameBlob, blobs) ← readArchive img
  finish (layOut entries (wordAt img 0 6) nameBlob (blobs.map (signBlob mac)))

end CactKernel.Initfs
