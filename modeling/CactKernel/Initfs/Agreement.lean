import CactKernel.Initfs.Lookup

/-! # The signing tool and the kernel

The archive that the tool writes is one that the kernel takes, with every module under
its old name and with a tag that the kernel takes, unless a module is the tag of the
empty module: the tool takes that one for signed, and the kernel for unsigned. -/

set_option autoImplicit false

namespace CactKernel.Initfs

open Lib Lib.Bytes List Nat

/-! ## Signatures -/

variable {blob : List UInt8}

section Signatures

variable {mac : List UInt8 → List UInt8}

theorem alreadySigned_append (tag : ∀ data, (mac data).length = tagSize) (blob : List UInt8) :
    alreadySigned mac (blob ++ mac blob) := by
  have length : (blob ++ mac blob).length - tagSize = blob.length := by
    rw [length_append, tag]
    omega
  refine ⟨?_, ?_⟩
  · rw [length_append, tag]
    omega
  · rw [length, take_left, drop_left]

theorem signBlob_again (tag : ∀ data, (mac data).length = tagSize) (blob : List UInt8) :
    signBlob mac (signBlob mac blob) = signBlob mac blob := by
  by_cases signed : alreadySigned mac blob
  · have once : signBlob mac blob = blob := by rw [signBlob, if_pos signed]
    rw [once, once]
  have later := alreadySigned_append tag blob
  have once : signBlob mac blob = blob ++ mac blob := by rw [signBlob, if_neg signed]
  rw [once, signBlob, if_pos later]

theorem hmacVerifyModule_signed (signed : alreadySigned mac blob)
    (long : tagSize < blob.length) :
    hmacVerifyModule mac blob = some (blob.take (blob.length - tagSize) ++
      List.replicate tagSize 0, blob.length - tagSize) := by
  rw [hmacVerifyModule, if_neg (by omega)]
  rw [if_pos signed.2]

theorem hmacVerifyModule_signBlob (tag : ∀ data, (mac data).length = tagSize)
    (nonempty : blob ≠ []) (proper : blob ≠ mac []) :
    ∃ data len, hmacVerifyModule mac (signBlob mac blob) = some (data, len) ∧
      (¬ alreadySigned mac blob →
        data.take len = blob ∧ len + tagSize = (signBlob mac blob).length) := by
  by_cases signed : alreadySigned mac blob
  · have long : tagSize < blob.length := by
      apply lt_of_le_of_ne signed.1
      intro short
      have same := signed.2
      rw [← short, Nat.sub_self, take_zero, drop_zero] at same
      exact proper same.symm
    rw [signBlob, if_pos signed]
    exact ⟨_, _, hmacVerifyModule_signed signed long, fun unsigned => absurd signed unsigned⟩
  · have positive := length_pos_iff.mpr nonempty
    have later := alreadySigned_append tag blob
    have length : (blob ++ mac blob).length = blob.length + tagSize := by
      rw [length_append, tag]
    rw [signBlob, if_neg signed]
    refine ⟨_, _, hmacVerifyModule_signed later (by omega), ?_⟩
    intro _
    rw [length, Nat.add_sub_cancel, take_left]
    exact ⟨take_left, rfl⟩

theorem hmacVerifyModule_tag (tag : ∀ data, (mac data).length = tagSize) :
    hmacVerifyModule mac (signBlob mac (mac [])) = none := by
  have signed : alreadySigned mac (mac []) := by
    refine ⟨le_of_eq (tag []).symm, ?_⟩
    rw [tag, Nat.sub_self, take_zero, drop_zero]
  rw [signBlob, if_pos signed, hmacVerifyModule, if_pos (le_of_eq (tag []))]

end Signatures

/-! ## The tool and the kernel -/

def entryOf (img : List UInt8) (i : Nat) : Entry :=
  let off := wordAt img 0 4 + i * entrySize
  ⟨wordAt img off 0, wordAt img off 1, wordAt img off 2, wordAt img off 3, wordAt img off 4⟩

def entriesOf (img : List UInt8) : List Entry := (List.range (wordAt img 0 3)).map (entryOf img)

def namesOf (img : List UInt8) : List UInt8 := slice img (wordAt img 0 5) (wordAt img 0 6)

def nameOf (img : List UInt8) (e : Entry) : List UInt8 := slice (namesOf img) e.nameOff e.nameLen

def blobOf (img : List UInt8) (e : Entry) : List UInt8 := slice img e.dataOff e.dataSize

def blobsOf (img : List UInt8) : List (List UInt8) := (entriesOf img).map (blobOf img)

/-- An archive with its entries, names and modules inside it, under distinct names and with no
module empty. -/
structure WellFormed (img : List UInt8) : Prop where
  header : headerSize ≤ img.length
  magic : wordAt img 0 0 = cctkfsMagic
  entries : wordAt img 0 4 + wordAt img 0 3 * entrySize ≤ img.length
  names : wordAt img 0 5 + wordAt img 0 6 ≤ img.length
  nameInside : ∀ e ∈ entriesOf img, e.nameOff + e.nameLen ≤ wordAt img 0 6
  nulFree : ∀ e ∈ entriesOf img, (0 : UInt8) ∉ nameOf img e
  dataInside : ∀ e ∈ entriesOf img, e.dataOff + e.dataSize ≤ img.length
  nonempty : ∀ e ∈ entriesOf img, 0 < e.dataSize
  distinct : (entriesOf img).Pairwise fun e e' => nameOf img e ≠ nameOf img e'

/-- What the kernel makes of the new archive `out`, wherever and whenever it is loaded, and what
the tool makes of it. -/
structure Agrees (mac : List UInt8 → List UInt8) (img out : List UInt8) : Prop where
  accepted : ∀ (m : Modblob) (physAddr : Nat), physAddr ≠ 0 → (m.load physAddr out).1 = 0
  found : ∀ (m : Modblob) (physAddr : Nat), physAddr ≠ 0 → ∀ e ∈ entriesOf img,
    ∃ off size, (m.load physAddr out).2.get (nameOf img e) = some (off, size) ∧
      ∃ data len, hmacVerifyModule mac (peek (m.load physAddr out).2.stage off size) =
          some (data, len) ∧
        (¬ alreadySigned mac (blobOf img e) →
          data.take len = blobOf img e ∧ len + tagSize = size)
  again : sign mac out = some out

/-! ## What the tool reads -/

theorem wordAt_lt (img : List UInt8) (off k : Nat) : wordAt img off k < 2 ^ 32 := by
  have bound := decode_lt (slice img (off + 4 * k) 4)
  have short : (slice img (off + 4 * k) 4).length ≤ 4 := length_take_le _ _
  exact Nat.lt_of_lt_of_le bound (Nat.pow_le_pow_right (by decide) short)

variable {img : List UInt8}

theorem readArchive_eq (header : headerSize ≤ img.length) (magic : wordAt img 0 0 = cctkfsMagic)
    (entries : wordAt img 0 4 + wordAt img 0 3 * entrySize ≤ img.length) :
    readArchive img = some (entriesOf img, namesOf img, blobsOf img) := by
  have length : (entriesOf img).length = wordAt img 0 3 := by
    rw [entriesOf, length_map, length_range]
  have read : (range (wordAt img 0 3)).mapM (readEntry img (wordAt img 0 4)) =
      some (entriesOf img) := by
    rw [← length]
    apply mapM_range
    intro i e there
    have inside : i < wordAt img 0 3 := by
      rw [← length]
      exact (List.getElem?_eq_some_iff.mp there).1
    have step : (i + 1) * entrySize ≤ wordAt img 0 3 * entrySize := mul_le_mul_right _ inside
    rw [entriesOf, getElem?_map, getElem?_range inside] at there
    rw [succ_mul] at step
    rw [readEntry, if_pos (by omega)]
    exact there
  rw [readArchive, if_neg (by omega), if_neg (by rw [magic]; exact fun differ => differ rfl), read]
  rfl

/-- The parts of the new archive. -/
def signedParts (mac : List UInt8 → List UInt8) (img : List UInt8) : Parts :=
  ⟨entriesOf img, namesOf img, (blobsOf img).map (signBlob mac), by
    rw [List.length_map, blobsOf, List.length_map]⟩

variable {e : Entry}

theorem signedParts_get (mac : List UInt8 → List UInt8) {i : Nat}
    (there : (entriesOf img)[i]? = some e) :
    (signedParts mac img).table[i]? = some (e, signBlob mac (blobOf img e)) := by
  apply getElem?_zip_eq_some.mpr
  refine ⟨there, ?_⟩
  change ((blobsOf img).map (signBlob mac))[i]? = _
  rw [blobsOf, getElem?_map, getElem?_map, there]
  rfl

theorem signedParts_fits {mac : List UInt8 → List UInt8}
    (small : (signedParts mac img).total < 2 ^ 32) : (signedParts mac img).Fits := by
  refine ⟨small, ?_⟩
  intro e member
  obtain ⟨i, _, rfl⟩ := mem_map.mp member
  exact ⟨wordAt_lt _ _ _, wordAt_lt _ _ _, wordAt_lt _ _ _⟩

namespace WellFormed

variable {mac : List UInt8 → List UInt8} {img : List UInt8}

theorem names_length (wf : WellFormed img) : (namesOf img).length = wordAt img 0 6 :=
  length_slice wf.names

theorem sign_eq (wf : WellFormed img) (small : (signedParts mac img).total < 2 ^ 32) :
    sign mac img = some (signedParts mac img).written := by
  rw [sign, readArchive_eq wf.header wf.magic wf.entries, ← wf.names_length]
  exact (signedParts mac img).finish_layOut small

theorem named (wf : WellFormed img) : (signedParts mac img).Named := by
  refine ⟨?_, wf.nulFree, wf.distinct⟩
  intro e member
  have inside := wf.nameInside e member
  rw [← wf.names_length] at inside
  exact inside

theorem blob_nonempty (wf : WellFormed img) (member : e ∈ entriesOf img) :
    blobOf img e ≠ [] := by
  have length : (blobOf img e).length = e.dataSize := length_slice (wf.dataInside e member)
  have positive := wf.nonempty e member
  intro empty
  rw [empty, length_nil] at length
  omega

end WellFormed

/-! ## A written archive read back -/

namespace Parts

variable {p : Parts}

theorem again_total (p : Parts) : p.again.total = p.total := by
  have same := congrArg length p.again_written
  rw [written, written, length_image, length_image] at same
  exact same

/-- The tool leaves an archive of signed modules as it is. -/
theorem sign_written {mac : List UInt8 → List UInt8} (fits : p.Fits)
    (signed : p.blobs.map (signBlob mac) = p.blobs) : sign mac p.written = some p.written := by
  have read := readArchive_image fits (crc_lt (p.image 0))
  have total := fits.total
  rw [sign, written, read, Parts.header_word fits (crc_lt (p.image 0)) (k := 6) rfl]
  change finish (layOut p.rewritten p.names.length p.names (p.blobs.map (signBlob mac))) = _
  rw [signed]
  have finished := p.again.finish_layOut (by rw [p.again_total]; exact total)
  rw [p.again_written] at finished
  exact finished

end Parts

/-! ## Agreement -/

section Agreement

variable {mac : List UInt8 → List UInt8} {img : List UInt8}

theorem loaded_module (wf : WellFormed img)
    (small : (signedParts mac img).total ≤ initfsModblobMaxImage)
    (member : e ∈ entriesOf img) (m : Modblob) {physAddr : Nat} (present : physAddr ≠ 0) :
    ∃ off, (m.load physAddr (signedParts mac img).written).2.get (nameOf img e) =
        some (off, (signBlob mac (blobOf img e)).length) ∧
      peek (m.load physAddr (signedParts mac img).written).2.stage off
        (signBlob mac (blobOf img e)).length = signBlob mac (blobOf img e) := by
  have fits : (signedParts mac img).Fits :=
    signedParts_fits (lt_of_le_of_lt small (by decide))
  obtain ⟨loaded, run, staged, ready⟩ := load_written fits small m present
  obtain ⟨i, there⟩ := mem_iff_getElem?.mp member
  have at_i := signedParts_get mac there
  rw [run]
  exact ⟨_, staged.get_eq ready fits wf.named at_i,
    staged.module_eq ((signedParts mac img).table_get at_i).2⟩

theorem not_agrees_of_tag (tag : ∀ data, (mac data).length = tagSize) (wf : WellFormed img)
    (small : (signedParts mac img).total ≤ initfsModblobMaxImage) (there : mac [] ∈ blobsOf img) :
    ¬ Agrees mac img (signedParts mac img).written := by
  intro agrees
  obtain ⟨e, entry, same⟩ := mem_map.mp there
  have one : (1 : Nat) ≠ 0 := by decide
  obtain ⟨off, size, got, data, len, verified, _⟩ :=
    agrees.found ⟨fun _ => 0, 0, false⟩ 1 one e entry
  obtain ⟨off', got', stored⟩ := loaded_module wf small entry ⟨fun _ => 0, 0, false⟩ one
  rw [got'] at got
  cases got
  rw [stored, same, hmacVerifyModule_tag tag] at verified
  cases verified

theorem signing_agrees_iff (tag : ∀ data, (mac data).length = tagSize) (wf : WellFormed img)
    (small : (layOut (entriesOf img) (wordAt img 0 6) (namesOf img)
      ((blobsOf img).map (signBlob mac))).length ≤ initfsModblobMaxImage) :
    ∃ out, sign mac img = some out ∧
      (Agrees mac img out ↔ ∀ blob ∈ blobsOf img, blob ≠ mac []) := by
  have size := (signedParts mac img).length_layOut
  rw [← wf.names_length] at small
  have total : (signedParts mac img).total ≤ initfsModblobMaxImage := size ▸ small
  have below : (signedParts mac img).total < 2 ^ 32 := lt_of_le_of_lt total (by decide)
  have fits := signedParts_fits below
  refine ⟨_, wf.sign_eq below, ?_⟩
  constructor
  · intro agrees blob member same
    exact not_agrees_of_tag tag wf total (same ▸ member) agrees
  · intro proper
    refine ⟨?_, ?_, ?_⟩
    · intro m physAddr present
      obtain ⟨loaded, run, _⟩ := load_written fits total m present
      rw [run]
    · intro m physAddr present e member
      obtain ⟨off, got, stored⟩ := loaded_module wf total member m present
      refine ⟨_, _, got, ?_⟩
      rw [stored]
      exact hmacVerifyModule_signBlob tag (wf.blob_nonempty member)
        (proper _ (mem_map_of_mem member))
    · apply Parts.sign_written fits
      change ((blobsOf img).map (signBlob mac)).map (signBlob mac) = _
      rw [map_map]
      apply map_congr_left
      intro blob _
      exact signBlob_again tag blob

end Agreement

def twoModules : Parts :=
  ⟨[⟨0, 1, 0, 0, 0⟩, ⟨1, 1, 0, 0, 0⟩], [97, 98], [[1, 2, 3], [4]], rfl⟩

def lengthTag (data : List UInt8) : List UInt8 := List.replicate tagSize (.ofNat data.length)

theorem length_lengthTag (data : List UInt8) : (lengthTag data).length = tagSize :=
  length_replicate

theorem signing_agrees_iff_two : ∃ out, sign lengthTag twoModules.written = some out ∧
    Agrees lengthTag twoModules.written out := by
  have wf : WellFormed twoModules.written := by constructor <;> decide +kernel
  obtain ⟨out, signed, agrees⟩ := signing_agrees_iff length_lengthTag wf (by decide +kernel)
  exact ⟨out, signed, agrees.mpr (by decide +kernel)⟩

/-- One module `a` that is the tag of the empty module. -/
def tagModule (mac : List UInt8 → List UInt8) : Parts := ⟨[⟨0, 1, 0, 0, 0⟩], [97], [mac []], rfl⟩

theorem tag_module_refused :
    ¬ ∀ (mac : List UInt8 → List UInt8) (img out : List UInt8),
      (∀ data, (mac data).length = tagSize) → WellFormed img →
      out.length ≤ initfsModblobMaxImage → sign mac img = some out → Agrees mac img out := by
  intro always
  have wf : WellFormed (tagModule lengthTag).written := by constructor <;> decide +kernel
  have small : (signedParts lengthTag (tagModule lengthTag).written).total ≤
      initfsModblobMaxImage := by decide +kernel
  -- the tool takes the module for a signed one and leaves it, the kernel finds nothing before
  -- the tag
  have refused := not_agrees_of_tag length_lengthTag wf small (by decide +kernel)
  refine refused (always _ _ _ length_lengthTag wf ?_ (wf.sign_eq (lt_of_le_of_lt small ?_)))
  · rw [Parts.written, Parts.length_image]
    exact small
  · decide

end CactKernel.Initfs
