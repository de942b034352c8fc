import CactKernel.Memory.Mmap

/-! # The ELF loader

`elf_loader.c`. A file is its size and its bytes. A header that is read past the
end of the file keeps what was on the kernel stack there, `stale`. -/

set_option autoImplicit false

namespace CactKernel.Memory

open Lib

structure File where
  size : Nat
  byte : Nat → UInt8
  /-- The uninitialised bytes of the header structs. -/
  stale : Nat → UInt8

/-- The number that `read_vfs` returns. -/
def File.readCount (file : File) (offset n : Nat) : Nat := min n (file.size - offset)

/-- A struct of `n` bytes read at `offset`; nothing read is an error. -/
def File.readStruct (file : File) (offset n : Nat) : Option (Nat → UInt8) :=
  if file.readCount offset n = 0 then none
  else some fun k => if k < file.readCount offset n then file.byte (offset + k) else file.stale k

def le16 (bytes : Nat → UInt8) (k : Nat) : Nat := (bytes k).toNat + 256 * (bytes (k + 1)).toNat

def le32 (bytes : Nat → UInt8) (k : Nat) : Nat := le16 bytes k + 65536 * le16 bytes (k + 2)

/-- The fields of `Elf32_Ehdr` that the loader reads. -/
structure Ehdr where
  magic : Nat
  eiClass : Nat
  eiData : Nat
  eiVersion : Nat
  machine : Nat
  entry : Nat
  phoff : Nat
  phentsize : Nat
  phnum : Nat
  deriving DecidableEq, Repr

def Ehdr.decode (b : Nat → UInt8) : Ehdr where
  magic := le32 b 0
  eiClass := (b 4).toNat
  eiData := (b 5).toNat
  eiVersion := (b 6).toNat
  machine := le16 b 18
  entry := le32 b 24
  phoff := le32 b 28
  phentsize := le16 b 42
  phnum := le16 b 44

structure Phdr where
  type : Nat
  offset : Nat
  vaddr : Nat
  filesz : Nat
  memsz : Nat
  deriving DecidableEq, Repr

def Phdr.decode (b : Nat → UInt8) : Phdr where
  type := le32 b 0
  offset := le32 b 4
  vaddr := le32 b 8
  filesz := le32 b 16
  memsz := le32 b 20

def elfMagic : Nat := 0x464C457F

/-- The end of the program headers. -/
def Ehdr.phEnd (h : Ehdr) : Nat := h.phoff + h.phnum * h.phentsize

/-- The checks on the header that both loaders make. -/
def Ehdr.accepted (h : Ehdr) (file : File) : Bool :=
  h.magic = elfMagic && h.eiClass = 1 && h.eiData = 1 && h.eiVersion = 1 && h.machine = 3 &&
    32 ≤ h.phentsize && h.phEnd ≤ file.size

def File.header (file : File) : Option Ehdr :=
  (file.readStruct 0 52).map Ehdr.decode

def File.phdr (file : File) (h : Ehdr) (i : Nat) : Option Phdr :=
  (file.readStruct (h.phoff + i * h.phentsize) 32).map Phdr.decode

/-- `ph.p_type == PT_LOAD` and a size. -/
def Phdr.isLoad (ph : Phdr) : Bool := ph.type = 1 && ph.memsz ≠ 0

/-- Neither end of the segment wraps. -/
def Phdr.fits (ph : Phdr) : Bool := ph.vaddr + ph.memsz < 2 ^ 32 && ph.vaddr + ph.filesz < 2 ^ 32

def Phdr.firstPage (ph : Phdr) : Nat := ph.vaddr / pageSize

/-- The page after the last one; the sum wraps at the top of the address space. -/
def Phdr.endPage (ph : Phdr) : Nat := (ph.vaddr + ph.memsz + 0xFFF) % 2 ^ 32 / pageSize

def Phdr.pageCount (ph : Phdr) : Nat := ph.endPage - ph.firstPage

/-! ## Pages of a segment -/

/-- The part of the file that goes into the page at `va`: offset in the page, offset in the
file and length. -/
def Phdr.copyRange (ph : Phdr) (va : Nat) : Option (Nat × Nat × Nat) :=
  let fileEnd := ph.vaddr + ph.filesz
  let copyStart := max va ph.vaddr
  let copyEnd := min (va + pageSize) fileEnd
  if va < fileEnd ∧ copyStart < copyEnd then
    some (copyStart - va, (ph.offset + (copyStart - ph.vaddr)) % 2 ^ 32, copyEnd - copyStart)
  else none

/-- The bytes of a page of the image; a read that gives nothing is an error. -/
def Phdr.pageBytes (ph : Phdr) (file : File) (va : Nat) : Option (Nat → UInt8) :=
  match ph.copyRange va with
  | none => some fun _ => 0
  | some (pageOffset, fileOffset, n) =>
    let rd := file.readCount fileOffset n
    if rd = 0 then none
    else some fun k =>
      if pageOffset ≤ k ∧ k < pageOffset + rd then file.byte (fileOffset + (k - pageOffset)) else 0

def loadPage (d : DirId) (file : File) (ph : Phdr) (i : Nat) (m : Mem) : Bool × Mem :=
  match m.kalloc with
  | (none, m) => (false, m)
  | (some f, m) =>
    match ph.pageBytes file ((ph.firstPage + i) * pageSize) with
    | none => (false, m)
    | some bytes => (true, (m.fill f bytes).vmmMap d (ph.firstPage + i) f (userFlags true))

def loadSegment (d : DirId) (file : File) (ph : Phdr) (m : Mem) : Bool × Mem :=
  if ph.isLoad && ph.fits then countWhile (loadPage d file ph) ph.pageCount m else (true, m)

def loadSegments (d : DirId) (file : File) (h : Ehdr) (m : Mem) : Bool × Mem :=
  countWhile (fun i m =>
    match file.phdr h i with
    | none => (false, m)
    | some ph => loadSegment d file ph m) h.phnum m

/-- `load_elf`; an entry point of 0 counts as a failure. -/
def loadElf (d : DirId) (file : File) (m : Mem) : Option Mem :=
  match file.header with
  | none => none
  | some h =>
    if !h.accepted file then none
    else match loadSegments d file h m with
      | (true, m) => if h.entry = 0 then none else some m
      | (false, _) => none

/-! ## Images with an interpreter -/

/-- `min_vaddr`, in pages. -/
def minPage (file : File) (h : Ehdr) : Option Nat :=
  (List.range h.phnum).foldl (fun best i =>
    match file.phdr h i with
    | some ph => if ph.isLoad then some (min (best.getD ph.firstPage) ph.firstPage) else best
    | none => best) none

/-- A loaded segment holds the program headers. -/
def phdrCovered (file : File) (h : Ehdr) : Bool :=
  (List.range h.phnum).any fun i =>
    match file.phdr h i with
    | some ph => ph.isLoad && ph.fits && ph.offset ≤ h.phoff && h.phEnd ≤ ph.offset + ph.filesz
    | none => false

/-- The page with a copy of the program headers, below the lowest segment. -/
def mapPhdrPage (d : DirId) (file : File) (h : Ehdr) (low : Nat) (m : Mem) : Bool × Mem :=
  match m.kalloc with
  | (none, m) => (false, m)
  | (some f, m) =>
    let pageOff := h.phoff % pageSize
    let rd := file.readCount h.phoff (min (h.phEnd - h.phoff) (pageSize - pageOff))
    let bytes : Nat → UInt8 := fun k =>
      if pageOff ≤ k ∧ k < pageOff + rd then file.byte (h.phoff + (k - pageOff)) else 0
    (true, (m.fill f bytes).vmmMap d (wrapPage (low + (2 ^ 20 - 1))) f (userFlags true))

/-- `_map_image`; gives the entry point. -/
def mapImage (d : DirId) (file : File) (m : Mem) : Option (Nat × Mem) :=
  match file.header with
  | none => none
  | some h =>
    if !h.accepted file then none
    else match minPage file h with
      | none => none
      | some low =>
        match loadSegments d file h m with
        | (false, _) => none
        | (true, m) =>
          if phdrCovered file h then some (h.entry, m)
          else match mapPhdrPage d file h low m with
            | (true, m) => some (h.entry, m)
            | (false, _) => none

/-- `load_elf`, or `load_elf_interp` when the file names an interpreter. -/
def loadImage (d : DirId) (file : File) (interp : Option File) (m : Mem) : Option Mem :=
  match interp with
  | none => loadElf d file m
  | some ld =>
    match mapImage d file m with
    | none => none
    | some (_, m) =>
      match mapImage d ld m with
      | none => none
      | some (entry, m) => if entry = 0 then none else some m

def elfBrkStart (file : File) : Nat :=
  match file.header with
  | none => 0
  | some h =>
    if h.magic ≠ elfMagic ∨ h.phentsize < 32 ∨ file.size < h.phEnd then 0
    else
      let highest := (List.range h.phnum).foldl (fun best i =>
        match file.phdr h i with
        | some ph =>
          if ph.type = 1 ∧ ph.vaddr + ph.memsz < 2 ^ 32 then max best (ph.vaddr + ph.memsz)
          else best
        | none => best) 0
      (highest + 4095) % 2 ^ 32 / 4096 * 4096

end CactKernel.Memory
