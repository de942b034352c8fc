import CactKernel.Initfs.Layout

/-! # The kernel takes a new archive

The kernel's table of remainders gives the CRC-32 of the tool, so that it accepts the
header of every archive the tool has written, and it finds each module under its name. -/

set_option autoImplicit false

namespace CactKernel.Initfs

open Lib Lib.Bytes List Option Nat Bool

/-! ## The checksum -/

theorem crc32Word_remainder (i : Nat) (inside : i < 256) :
    crc32Word i = Crc32.bitSteps crc32Poly 8 (BitVec.ofNat 32 i) := by
  have all : ∀ i < 256, crc32Word i = Crc32.bitSteps crc32Poly 8 (BitVec.ofNat 32 i) := by
    decide +kernel
  exact all i inside

theorem byte_high (byte : UInt8) : BitVec.ofNat 32 byte.toNat >>> 8 = 0#32 := by
  apply BitVec.eq_of_toNat_eq
  have small := byte.toNat_lt
  rw [BitVec.toNat_ushiftRight, BitVec.toNat_ofNat, shiftRight_eq_div_pow]
  change byte.toNat % 2 ^ 32 / 2 ^ 8 = 0
  omega

theorem computeImageCrc32_eq {memory : Nat → UInt8} {zeroed : List UInt8}
    (same : ∀ i byte, zeroed[i]? = some byte →
      (if cctkfsCksumOff ≤ i ∧ i < cctkfsCksumOff + 4 then 0 else memory i) = byte) :
    computeImageCrc32 memory zeroed.length = crc32 zeroed := by
  have bytes : (range zeroed.length).map (fun i =>
      if cctkfsCksumOff ≤ i ∧ i < cctkfsCksumOff + 4 then 0 else memory i) = zeroed :=
    map_range same
  have step : ∀ (c : BitVec 32) (byte : UInt8),
      Crc32.tableStep crc32Word c (BitVec.ofNat 32 byte.toNat) =
        Crc32.byteStep crc32Poly c (BitVec.ofNat 32 byte.toNat) := fun c byte =>
    Crc32.tableStep_eq crc32Poly crc32Word_remainder c _ (byte_high byte)
  rw [crc32, ← bytes, foldl_map, length_map, length_range, computeImageCrc32]
  simp only [step]

theorem image_split (p : Parts) : ∃ front : List UInt8, front.length = cctkfsCksumOff ∧
    ∀ crc, p.image crc = front ++ encode 4 crc ++ p.body := by
  refine ⟨words [cctkfsMagic, 1, p.total, p.entries.length, headerSize, p.namesOff,
    p.names.length], ?_, ?_⟩
  · rw [length_words]
    rfl
  · intro crc
    have shape := words_append [cctkfsMagic, 1, p.total, p.entries.length, headerSize, p.namesOff,
      p.names.length] [crc]
    rw [words_cons crc []] at shape
    rw [← append_nil (encode 4 crc)]
    exact congrArg (· ++ p.body) shape

variable {i : Nat}

theorem image_zeroed (p : Parts) (crc : Nat) {byte : UInt8}
    (there : (p.image 0)[i]? = some byte) :
    if cctkfsCksumOff ≤ i ∧ i < cctkfsCksumOff + 4 then byte = 0
    else (p.image crc)[i]? = some byte := by
  obtain ⟨front, length, shape⟩ := image_split p
  rw [shape] at there ⊢
  split
  · rename_i inside
    rw [append_assoc, getElem?_append_right (by omega),
      getElem?_append_left (by rw [length_encode]; omega)] at there
    have member := mem_of_getElem? there
    have zeros : ∀ b ∈ encode 4 0, b = 0 := by decide +kernel
    exact zeros byte member
  rename_i outside
  by_cases low : i < cctkfsCksumOff
  · rw [append_assoc, getElem?_append_left (by omega)] at there ⊢
    exact there
  have long : ∀ n, (front ++ encode 4 n).length ≤ i := by
    intro n
    rw [length_append, length, length_encode]
    omega
  have length_same : (front ++ encode 4 0).length = (front ++ encode 4 crc).length := by
    rw [length_append, length_append, length_encode, length_encode]
  rw [getElem?_append_right (long _)] at there ⊢
  rw [← length_same]
  exact there

/-! ## The staged image -/

variable {want : List UInt8} {blob : Nat → UInt8}

/-- The kernel holds the archive. -/
structure Staged (p : Parts) (m : Modblob) : Prop where
  holds : Holds m.stage p.written
  size : m.size = p.total

namespace Staged

variable {p : Parts} {m : Modblob}

theorem word_eq (staged : Staged p m) {off k : Nat} (inside : off + 4 * k + 4 ≤ p.total) :
    m.word (off + 4 * k) = wordAt p.written off k := by
  rw [Modblob.word, wordAt, peek_eq_slice staged.holds]
  rw [Parts.written, p.length_image]
  exact inside

theorem header (staged : Staged p m) (fits : p.Fits) {k value : Nat}
    (there : (p.header p.total (crc32 (p.image 0)).toNat)[k]? = some value) :
    m.word (4 * k) = value := by
  have inside : k < 8 := (List.getElem?_eq_some_iff.mp there).1
  have bounds := p.offsets
  rw [headerSize] at bounds
  have same : m.word (0 + 4 * k) = wordAt p.written 0 k := staged.word_eq (by omega)
  rw [zero_add] at same
  rw [same]
  exact Parts.header_word fits (Parts.crc_lt _) there

theorem crc (staged : Staged p m) :
    computeImageCrc32 m.stage p.total = crc32 (p.image 0) := by
  rw [← p.length_image 0]
  apply computeImageCrc32_eq
  intro i byte there
  have zeroed := image_zeroed p (crc32 (p.image 0)).toNat there
  split
  · rename_i inside
    rw [if_pos inside] at zeroed
    exact zeroed.symm
  · rename_i outside
    rw [if_neg outside] at zeroed
    exact staged.holds i byte zeroed

theorem validateHeader (staged : Staged p m) (fits : p.Fits) : m.validateHeader p.total = 0 := by
  obtain ⟨start, bounds⟩ := p.offsets
  have total := fits.total
  have magic : m.magic = cctkfsMagic := staged.header fits (k := 0) rfl
  have version : m.version = 1 := staged.header fits (k := 1) rfl
  have size : m.totalSize = p.total := staged.header fits (k := 2) rfl
  have count : m.count = p.entries.length := staged.header fits (k := 3) rfl
  have entries : m.entriesOff = headerSize := staged.header fits (k := 4) rfl
  have names : m.namesOff = p.namesOff := staged.header fits (k := 5) rfl
  have length : m.namesSize = p.names.length := staged.header fits (k := 6) rfl
  have checksum : m.checksum = (crc32 (p.image 0)).toNat := staged.header fits (k := 7) rfl
  have namesEnd : Modblob.add32 p.namesOff p.names.length = p.namesOff + p.names.length :=
    mod_eq_of_lt (by omega)
  have entriesEnd : Modblob.add32 headerSize (p.entries.length * entrySize) = p.namesOff :=
    mod_eq_of_lt (by omega)
  rw [headerSize, entrySize] at start
  rw [Modblob.validateHeader, magic, version, size, count, entries, names, length, checksum,
    staged.crc, namesEnd, if_neg (by rw [headerSize]; omega), if_neg (by simp),
    if_neg (by decide), if_neg (by simp), if_neg (by decide), if_neg (by omega),
    if_neg (by rw [entrySize]; omega)]
  rw [entriesEnd, if_neg (by rw [headerSize]; omega), if_neg (by simp)]

end Staged

theorem load_written {p : Parts} (fits : p.Fits) (small : p.total ≤ initfsModblobMaxImage)
    (m : Modblob) {physAddr : Nat} (present : physAddr ≠ 0) :
    ∃ loaded, m.load physAddr p.written = (0, loaded) ∧ Staged p loaded ∧ loaded.ready = true := by
  have bounds := p.offsets
  have length : p.written.length = p.total := p.length_image _
  rw [headerSize] at bounds
  have staged : Staged p { m with
      stage := fun i => p.written.getD i (m.stage i), size := p.written.length } := by
    refine ⟨?_, length⟩
    intro i byte there
    change p.written.getD i (m.stage i) = byte
    rw [getD_eq_getElem?_getD, there]
    rfl
  have valid := staged.validateHeader fits
  refine ⟨⟨fun i => p.written.getD i (m.stage i), p.written.length, true⟩, ?_,
    ⟨staged.holds, staged.size⟩, rfl⟩
  rw [Modblob.load, if_neg (by omega), if_neg (by omega)]
  rw [length] at valid ⊢
  rw [if_neg (by rw [valid]; decide)]

/-! ## Looking a module up -/

theorem nameEqFrom_iff {off : Nat} :
    ∀ {n i : Nat}, (0 : UInt8) ∉ want → i ≤ want.length →
    (Modblob.nameEqFrom want blob off i n = true ↔ want.drop i = peek blob (off + i) n) := by
  intro n
  induction n with
  | zero =>
    intro i nulFree inside
    rw [Modblob.nameEqFrom, decide_eq_true_iff, Modblob.cstr, getD_eq_getElem?_getD]
    by_cases last : i < want.length
    · rw [getElem?_eq_getElem last, getD_some, drop_eq_getElem_cons last]
      constructor
      · intro zero
        exact absurd (zero ▸ getElem_mem last) nulFree
      · intro same
        cases same
    · rw [getElem?_eq_none (by omega), drop_eq_nil_of_le (by omega)]
      exact ⟨fun _ => rfl, fun _ => rfl⟩
  | succ n ih =>
    intro i nulFree inside
    have read : peek blob (off + i) (n + 1) = blob (off + i) :: peek blob (off + (i + 1)) n := by
      rw [peek, List.range_succ_eq_map, List.map_cons, List.map_map, peek, add_zero]
      congr 1
      apply map_congr_left
      intro j _
      rw [Function.comp, succ_eq_add_one, ← add_assoc, add_right_comm]
      rfl
    rw [Modblob.nameEqFrom, Modblob.cstr, getD_eq_getElem?_getD, read]
    by_cases last : i < want.length
    · have nonzero : want[i] ≠ 0 := fun zero => nulFree (zero ▸ getElem_mem last)
      rw [getElem?_eq_getElem last, getD_some, if_neg nonzero,
        drop_eq_getElem_cons last, cons.injEq]
      by_cases same : want[i] = blob (off + i)
      · rw [if_neg (by simpa using same), ih nulFree last]
        exact ⟨fun rest => ⟨same, rest⟩, fun both => both.2⟩
      · rw [if_pos same]
        exact iff_of_false Bool.false_ne_true fun both => absurd both.1 same
    · rw [getElem?_eq_none (by omega), drop_eq_nil_of_le (by omega), getD_none,
        if_pos rfl]
      constructor
      · intro false_true
        cases false_true
      · intro same
        cases same

theorem nameEq_iff {off len : Nat} (nulFree : (0 : UInt8) ∉ want) :
    Modblob.nameEq want blob off len = true ↔ want = peek blob off len :=
  nameEqFrom_iff nulFree (zero_le _)

def Parts.nameOf (p : Parts) (e : Entry) : List UInt8 := slice p.names e.nameOff e.nameLen

/-- Distinct names that lie inside the names. -/
structure Parts.Named (p : Parts) : Prop where
  inside : ∀ e ∈ p.entries, e.nameOff + e.nameLen ≤ p.names.length
  nulFree : ∀ e ∈ p.entries, (0 : UInt8) ∉ p.nameOf e
  distinct : p.entries.Pairwise fun e e' => p.nameOf e ≠ p.nameOf e'

namespace Staged

variable {p : Parts} {m : Modblob}

theorem entry_eq (staged : Staged p m) (fits : p.Fits) {e : Entry}
    (there : p.rewritten[i]? = some e) : m.entry i = e := by
  have read := Parts.readEntry_image fits (crc32 (p.image 0)).toNat there
  have inside : i < p.entries.length := by
    rw [← p.length_rewritten]
    exact (List.getElem?_eq_some_iff.mp there).1
  have within := p.entry_inside (crc32 (p.image 0)).toNat inside
  have start : m.entriesOff = headerSize := staged.header fits (k := 4) rfl
  rw [readEntry, if_pos within] at read
  rw [p.length_image, entrySize] at within
  have same : ∀ k < 5, m.word (headerSize + i * entrySize + 4 * k) =
      wordAt p.written (headerSize + i * entrySize) k := by
    intro k small
    exact staged.word_eq (by rw [entrySize]; omega)
  rw [Modblob.entry, start, ← some.inj read]
  congr 1
  · exact same 0 (by decide)
  · exact same 1 (by decide)
  · exact same 2 (by decide)
  · exact same 3 (by decide)
  · exact same 4 (by decide)

theorem entries_eq (staged : Staged p m) (fits : p.Fits) :
    (List.range m.count).map m.entry = p.rewritten := by
  have count : m.count = p.entries.length := staged.header fits (k := 3) rfl
  rw [count, ← p.length_rewritten]
  exact map_range fun i e there => staged.entry_eq fits there

theorem names_eq (staged : Staged p m) (fits : p.Fits) : Holds m.names p.names := by
  have start : m.namesOff = p.namesOff := staged.header fits (k := 5) rfl
  intro i byte there
  rw [Modblob.names, start]
  apply staged.holds
  have inside := (List.getElem?_eq_some_iff.mp there).1
  rw [← p.names_slice (crc32 (p.image 0)).toNat, slice, List.getElem?_take, if_pos inside,
    List.getElem?_drop] at there
  exact there

variable {blob : List UInt8}

theorem get_eq (staged : Staged p m) (ready : m.ready = true) (fits : p.Fits) (named : p.Named)
    {e : Entry} (there : p.table[i]? = some (e, blob)) :
    m.get (p.nameOf e) = some (p.offset i, blob.length) := by
  have total := fits.total
  have bounds := p.offsets
  have length : m.namesSize = p.names.length := staged.header fits (k := 6) rfl
  obtain ⟨entry_i, blob_i⟩ := p.table_get there
  have member : e ∈ p.entries := mem_of_getElem? entry_i
  have nulFree := named.nulFree e member
  have taken : ∀ (j : Nat) (e' : Entry) (blob' : List UInt8), p.table[j]? = some (e', blob') →
      ((!(decide (Modblob.add32 e'.nameOff e'.nameLen < e'.nameOff ∨
        m.namesSize < Modblob.add32 e'.nameOff e'.nameLen)) &&
          Modblob.nameEq (p.nameOf e) m.names e'.nameOff e'.nameLen) = true ↔
        p.nameOf e = p.nameOf e') := by
    intro j e' blob' at_j
    have inside := named.inside e' (mem_of_getElem? (p.table_get at_j).1)
    have sum : Modblob.add32 e'.nameOff e'.nameLen = e'.nameOff + e'.nameLen :=
      mod_eq_of_lt (by omega)
    rw [sum, length, and_eq_true, nameEq_iff nulFree,
      peek_eq_slice (staged.names_eq fits) inside]
    constructor
    · exact fun both => both.2
    · intro same
      refine ⟨?_, same⟩
      rw [not_eq_true', decide_eq_false_iff_not]
      omega
  have first : m.firstEntry (Modblob.nameEq (p.nameOf e) m.names) = some (p.entryAt i e blob) := by
    rw [Modblob.firstEntry, staged.entries_eq fits, find?_eq_some_iff_getElem]
    have here : p.rewritten[i]? = some (p.entryAt i e blob) := by
      rw [Parts.rewritten, getElem?_mapIdx, there]
      rfl
    obtain ⟨inside_i, same_i⟩ := List.getElem?_eq_some_iff.mp here
    refine ⟨(taken i e blob there).mpr rfl, i, inside_i, same_i, ?_⟩
    intro j before
    obtain ⟨e', blob', at_j, same⟩ :=
      p.rewritten_get (getElem?_eq_getElem (lt_trans before inside_i))
    rw [same, not_eq_true']
    apply eq_false_iff.mpr
    intro match_
    obtain ⟨low_j, entry_j⟩ := List.getElem?_eq_some_iff.mp (p.table_get at_j).1
    obtain ⟨low_i, entry_i⟩ := List.getElem?_eq_some_iff.mp entry_i
    have apart := pairwise_iff_getElem.mp named.distinct j i low_j low_i before
    rw [entry_j, entry_i] at apart
    exact apart ((taken j e' blob' at_j).mp match_).symm
  have inside := (p.blob_slice 0 blob_i).2
  have sum : Modblob.add32 (p.offset i) blob.length = p.offset i + blob.length :=
    mod_eq_of_lt (by omega)
  rw [Modblob.get, if_neg (by rw [ready]; decide), first]
  change m.payload (p.entryAt i e blob) = _
  rw [Modblob.payload]
  change (if Modblob.add32 (p.offset i) blob.length < p.offset i ∨
    m.size < Modblob.add32 (p.offset i) blob.length then none else _) = _
  rw [sum, staged.size, if_neg (by omega)]
  rfl

theorem module_eq (staged : Staged p m) (there : p.blobs[i]? = some blob) :
    peek m.stage (p.offset i) blob.length = blob := by
  obtain ⟨same, inside⟩ := p.blob_slice (crc32 (p.image 0)).toNat there
  rw [← p.length_image (crc32 (p.image 0)).toNat] at inside
  rw [peek_eq_slice staged.holds inside]
  exact same

end Staged

end CactKernel.Initfs
