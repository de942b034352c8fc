import CactKernel.Initfs.Archive

/-! # The kernel's side of a cctkfs archive

`initfs_modblob.c` copies the archive into a static buffer, checks its header and finds
modules by name; `hmac_verify_module` of the loader checks what was found. Sizes and
offsets are 32-bit words. -/

set_option autoImplicit false

namespace CactKernel.Initfs

open Lib Lib.Bytes

def cctkfsVersion : Nat := 1
def initfsModblobMaxImage : Nat := 4096 * 4096

def crc32Tab : List (BitVec 32) :=
  [0x00000000, 0x77073096, 0xEE0E612C, 0x990951BA, 0x076DC419, 0x706AF48F,
    0xE963A535, 0x9E6495A3, 0x0EDB8832, 0x79DCB8A4, 0xE0D5E91E, 0x97D2D988,
    0x09B64C2B, 0x7EB17CBD, 0xE7B82D07, 0x90BF1D91, 0x1DB71064, 0x6AB020F2,
    0xF3B97148, 0x84BE41DE, 0x1ADAD47D, 0x6DDDE4EB, 0xF4D4B551, 0x83D385C7,
    0x136C9856, 0x646BA8C0, 0xFD62F97A, 0x8A65C9EC, 0x14015C4F, 0x63066CD9,
    0xFA0F3D63, 0x8D080DF5, 0x3B6E20C8, 0x4C69105E, 0xD56041E4, 0xA2677172,
    0x3C03E4D1, 0x4B04D447, 0xD20D85FD, 0xA50AB56B, 0x35B5A8FA, 0x42B2986C,
    0xDBBBC9D6, 0xACBCF940, 0x32D86CE3, 0x45DF5C75, 0xDCD60DCF, 0xABD13D59,
    0x26D930AC, 0x51DE003A, 0xC8D75180, 0xBFD06116, 0x21B4F4B5, 0x56B3C423,
    0xCFBA9599, 0xB8BDA50F, 0x2802B89E, 0x5F058808, 0xC60CD9B2, 0xB10BE924,
    0x2F6F7C87, 0x58684C11, 0xC1611DAB, 0xB6662D3D, 0x76DC4190, 0x01DB7106,
    0x98D220BC, 0xEFD5102A, 0x71B18589, 0x06B6B51F, 0x9FBFE4A5, 0xE8B8D433,
    0x7807C9A2, 0x0F00F934, 0x9609A88E, 0xE10E9818, 0x7F6A0DBB, 0x086D3D2D,
    0x91646C97, 0xE6635C01, 0x6B6B51F4, 0x1C6C6162, 0x856530D8, 0xF262004E,
    0x6C0695ED, 0x1B01A57B, 0x8208F4C1, 0xF50FC457, 0x65B0D9C6, 0x12B7E950,
    0x8BBEB8EA, 0xFCB9887C, 0x62DD1DDF, 0x15DA2D49, 0x8CD37CF3, 0xFBD44C65,
    0x4DB26158, 0x3AB551CE, 0xA3BC0074, 0xD4BB30E2, 0x4ADFA541, 0x3DD895D7,
    0xA4D1C46D, 0xD3D6F4FB, 0x4369E96A, 0x346ED9FC, 0xAD678846, 0xDA60B8D0,
    0x44042D73, 0x33031DE5, 0xAA0A4C5F, 0xDD0D7CC9, 0x5005713C, 0x270241AA,
    0xBE0B1010, 0xC90C2086, 0x5768B525, 0x206F85B3, 0xB966D409, 0xCE61E49F,
    0x5EDEF90E, 0x29D9C998, 0xB0D09822, 0xC7D7A8B4, 0x59B33D17, 0x2EB40D81,
    0xB7BD5C3B, 0xC0BA6CAD, 0xEDB88320, 0x9ABFB3B6, 0x03B6E20C, 0x74B1D29A,
    0xEAD54739, 0x9DD277AF, 0x04DB2615, 0x73DC1683, 0xE3630B12, 0x94643B84,
    0x0D6D6A3E, 0x7A6A5AA8, 0xE40ECF0B, 0x9309FF9D, 0x0A00AE27, 0x7D079EB1,
    0xF00F9344, 0x8708A3D2, 0x1E01F268, 0x6906C2FE, 0xF762575D, 0x806567CB,
    0x196C3671, 0x6E6B06E7, 0xFED41B76, 0x89D32BE0, 0x10DA7A5A, 0x67DD4ACC,
    0xF9B9DF6F, 0x8EBEEFF9, 0x17B7BE43, 0x60B08ED5, 0xD6D6A3E8, 0xA1D1937E,
    0x38D8C2C4, 0x4FDFF252, 0xD1BB67F1, 0xA6BC5767, 0x3FB506DD, 0x48B2364B,
    0xD80D2BDA, 0xAF0A1B4C, 0x36034AF6, 0x41047A60, 0xDF60EFC3, 0xA867DF55,
    0x316E8EEF, 0x4669BE79, 0xCB61B38C, 0xBC66831A, 0x256FD2A0, 0x5268E236,
    0xCC0C7795, 0xBB0B4703, 0x220216B9, 0x5505262F, 0xC5BA3BBE, 0xB2BD0B28,
    0x2BB45A92, 0x5CB36A04, 0xC2D7FFA7, 0xB5D0CF31, 0x2CD99E8B, 0x5BDEAE1D,
    0x9B64C2B0, 0xEC63F226, 0x756AA39C, 0x026D930A, 0x9C0906A9, 0xEB0E363F,
    0x72076785, 0x05005713, 0x95BF4A82, 0xE2B87A14, 0x7BB12BAE, 0x0CB61B38,
    0x92D28E9B, 0xE5D5BE0D, 0x7CDCEFB7, 0x0BDBDF21, 0x86D3D2D4, 0xF1D4E242,
    0x68DDB3F8, 0x1FDA836E, 0x81BE16CD, 0xF6B9265B, 0x6FB077E1, 0x18B74777,
    0x88085AE6, 0xFF0F6A70, 0x66063BCA, 0x11010B5C, 0x8F659EFF, 0xF862AE69,
    0x616BFFD3, 0x166CCF45, 0xA00AE278, 0xD70DD2EE, 0x4E048354, 0x3903B3C2,
    0xA7672661, 0xD06016F7, 0x4969474D, 0x3E6E77DB, 0xAED16A4A, 0xD9D65ADC,
    0x40DF0B66, 0x37D83BF0, 0xA9BCAE53, 0xDEBB9EC5, 0x47B2CF7F, 0x30B5FFE9,
    0xBDBDF21C, 0xCABAC28A, 0x53B39330, 0x24B4A3A6, 0xBAD03605, 0xCDD70693,
    0x54DE5729, 0x23D967BF, 0xB3667A2E, 0xC4614AB8, 0x5D681B02, 0x2A6F2B94,
    0xB40BBE37, 0xC30C8EA1, 0x5A05DF1B, 0x2D02EF8D]

def crc32Word (i : Nat) : BitVec 32 := crc32Tab.getD i 0

/-- `compute_image_crc32`: the checksum's own bytes count as zero. -/
def computeImageCrc32 (img : Nat → UInt8) (total : Nat) : BitVec 32 :=
  (List.range total).foldl (fun c i =>
    let b := if cctkfsCksumOff ≤ i ∧ i < cctkfsCksumOff + 4 then 0 else img i
    Crc32.tableStep crc32Word c (BitVec.ofNat 32 b.toNat)) 0xFFFFFFFF#32 ^^^ 0xFFFFFFFF#32

structure Modblob where
  stage : Nat → UInt8
  size : Nat
  ready : Bool

namespace Modblob

def word (m : Modblob) (off : Nat) : Nat := decode (peek m.stage off 4)

def magic (m : Modblob) : Nat := m.word 0
def version (m : Modblob) : Nat := m.word 4
def totalSize (m : Modblob) : Nat := m.word 8
def count (m : Modblob) : Nat := m.word 12
def entriesOff (m : Modblob) : Nat := m.word 16
def namesOff (m : Modblob) : Nat := m.word 20
def namesSize (m : Modblob) : Nat := m.word 24
def checksum (m : Modblob) : Nat := m.word 28

def add32 (a b : Nat) : Nat := (a + b) % 2 ^ 32

def validateHeader (m : Modblob) (size : Nat) : Int :=
  if size < headerSize then -1
  else if m.magic ≠ cctkfsMagic then -2
  else if m.version ≠ cctkfsVersion then -3
  else if m.totalSize ≠ size then -4
  else if m.entriesOff < headerSize then -5
  else if add32 m.namesOff m.namesSize < m.namesOff ∨ size < add32 m.namesOff m.namesSize then -6
  else if (2 ^ 32 - 1) / entrySize < m.count then -7
  else
    let entriesEnd := add32 m.entriesOff (m.count * entrySize)
    if entriesEnd < m.entriesOff ∨ m.namesOff < entriesEnd then -7
    else if m.checksum ≠ 0 ∧ m.checksum ≠ (computeImageCrc32 m.stage size).toNat then -8
    else 0

/-- `initfs_modblob_load` of the image `img` at `physAddr`. -/
def load (m : Modblob) (physAddr : Nat) (img : List UInt8) : Int × Modblob :=
  if physAddr = 0 ∨ img.length = 0 then (-1, m)
  else if initfsModblobMaxImage < img.length then (-2, m)
  else
    let staged := { m with stage := fun i => img.getD i (m.stage i), size := img.length }
    let rc := staged.validateHeader img.length
    if rc ≠ 0 then (rc, { staged with size := 0 }) else (0, { staged with ready := true })

/-! ## Lookup -/

/-- The characters of a C string and the zero after them. -/
def cstr (text : List UInt8) (i : Nat) : UInt8 := text.getD i 0

/-- `name_eq` from character `i` on, with `n` characters left. -/
def nameEqFrom (want : List UInt8) (blob : Nat → UInt8) (off i : Nat) : Nat → Bool
  | 0 => cstr want i = 0
  | n + 1 =>
    if cstr want i = 0 then false
    else if cstr want i ≠ blob (off + i) then false
    else nameEqFrom want blob off (i + 1) n

def nameEq (want : List UInt8) (blob : Nat → UInt8) (off len : Nat) : Bool :=
  nameEqFrom want blob off 0 len

/-- The rest of the path after its last slash. -/
def basenameFrom (last : List UInt8) : List UInt8 → List UInt8
  | [] => last
  | c :: rest => basenameFrom (if c = 47 then rest else last) rest

def basenameOf (path : List UInt8) : List UInt8 := basenameFrom path path

def blobBasenameOff (blob : Nat → UInt8) (off len : Nat) : Nat :=
  (List.range len).foldl (fun base i => if blob (off + i) = 47 then off + i + 1 else base) off

def basenameEq (want : List UInt8) (blob : Nat → UInt8) (off len : Nat) : Bool :=
  let base := blobBasenameOff blob off len
  nameEq want blob base (off + len - base)

/-- The words of `entries_ptr()[i]`. -/
def entry (m : Modblob) (i : Nat) : Entry :=
  let off := m.entriesOff + i * entrySize
  ⟨m.word off, m.word (off + 4), m.word (off + 8), m.word (off + 12), m.word (off + 16)⟩

def names (m : Modblob) (i : Nat) : UInt8 := m.stage (m.namesOff + i)

/-- The first entry with a name inside the names that the comparison takes. -/
def firstEntry (m : Modblob) (matches_ : Nat → Nat → Bool) : Option Entry :=
  ((List.range m.count).map m.entry).find? fun e =>
    let nameEnd := add32 e.nameOff e.nameLen
    !(nameEnd < e.nameOff ∨ m.namesSize < nameEnd) && matches_ e.nameOff e.nameLen

/-- The place and the size of the module, if it lies inside the image. -/
def payload (m : Modblob) (e : Entry) : Option (Nat × Nat) :=
  let dataEnd := add32 e.dataOff e.dataSize
  if dataEnd < e.dataOff ∨ m.size < dataEnd then none else some (e.dataOff, e.dataSize)

/-- `initfs_modblob_get`. -/
def get (m : Modblob) (path : List UInt8) : Option (Nat × Nat) :=
  if m.ready = false then none
  else
    match m.firstEntry (nameEq path m.names) with
    | some e => m.payload e
    | none =>
      let want := basenameOf path
      if want = [] then none
      else
        match m.firstEntry (basenameEq want m.names) with
        | some e => m.payload e
        | none => none

end Modblob

/-- `hmac_verify_module` on a copy of the module: what it leaves in the buffer, and the new
size. -/
def hmacVerifyModule (mac : List UInt8 → List UInt8) (data : List UInt8) :
    Option (List UInt8 × Nat) :=
  if data.length ≤ tagSize then none
  else
    let dataLen := data.length - tagSize
    if mac (data.take dataLen) = data.drop dataLen then
      some (data.take dataLen ++ List.replicate tagSize 0, dataLen)
    else none

end CactKernel.Initfs
