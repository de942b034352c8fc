import CactKernel.Initfs.Modblob

/-! # What stands where in a new archive

The archive that the tool writes is a header, the table of entries, the names and the
modules, each of them found where the header and the entries say. -/

set_option autoImplicit false

namespace CactKernel.Initfs

open Lib Lib.Bytes List Nat

/-! ## Words -/

theorem length_words (values : List Nat) : (words values).length = 4 * values.length := by
  induction values with
  | nil => rfl
  | cons value values ih =>
    rw [words, flatMap_cons, length_append, length_encode, ← words, ih,
      length_cons]
    omega

theorem words_append (left right : List Nat) : words (left ++ right) = words left ++ words right :=
  flatMap_append

theorem words_cons (value : Nat) (values : List Nat) :
    words (value :: values) = encode 4 value ++ words values :=
  flatMap_cons

variable {k value : Nat}

theorem wordAt_words {before after : List UInt8} {values : List Nat} {off : Nat}
    (start : before.length = off) (there : values[k]? = some value) (small : value < 2 ^ 32) :
    wordAt (before ++ words values ++ after) off k = value := by
  obtain ⟨inside, same⟩ := List.getElem?_eq_some_iff.mp there
  have split : values = values.take k ++ value :: values.drop (k + 1) := by
    rw [← same, getElem_cons_drop, take_append_drop]
  have length : (before ++ words (values.take k)).length = off + 4 * k := by
    rw [length_append, start, length_words, length_take]
    omega
  have shape : before ++ words values ++ after =
      (before ++ words (values.take k)) ++ encode 4 value ++
        (words (values.drop (k + 1)) ++ after) := by
    conv => lhs; rw [split, words_append, words_cons]
    simp
  rw [wordAt, shape]
  exact decode_slice length small

theorem packInto_words (before after : List Nat) {old : Nat} (rest : List UInt8) {off : Nat}
    (start : 4 * before.length = off) :
    packInto (words (before ++ old :: after) ++ rest) off value =
      words (before ++ value :: after) ++ rest := by
  have length : (words before).length = off := by rw [length_words, start]
  have after_old : (words before ++ encode 4 old).length = off + 4 := by
    rw [length_append, length, length_encode]
  have shape : words (before ++ old :: after) ++ rest =
      (words before ++ encode 4 old) ++ (words after ++ rest) := by
    rw [words_append, words_cons]
    simp
  have take : (words (before ++ old :: after) ++ rest).take off = words before := by
    rw [shape, append_assoc, ← length, take_left]
  have drop : (words (before ++ old :: after) ++ rest).drop (off + 4) = words after ++ rest := by
    rw [shape, ← after_old, drop_left]
  rw [packInto, take, drop, words_append, words_cons]
  simp

/-! ## Padding -/

theorem alignUp_mod (n : Nat) : alignUp n dataAlign % dataAlign = 0 := by
  rw [alignUp, dataAlign]
  omega

theorem alignUp_bounds (n : Nat) :
    n ≤ alignUp n dataAlign ∧ alignUp n dataAlign < n + dataAlign := by
  rw [alignUp, dataAlign]
  omega

theorem length_padded (out : List UInt8) : (padded out).length = alignUp out.length dataAlign := by
  have bound := alignUp_bounds out.length
  rw [padded, length_append, length_replicate]
  omega

theorem padded_append {out blob : List UInt8} (aligned : out.length % dataAlign = 0) :
    padded (out ++ blob) = out ++ padded blob := by
  have same : alignUp (out.length + blob.length) dataAlign - (out.length + blob.length) =
      alignUp blob.length dataAlign - blob.length := by
    rw [dataAlign] at aligned
    rw [alignUp, alignUp, dataAlign]
    omega
  rw [padded, length_append, same, padded, append_assoc]

theorem appendBlobs_eq {blobs : List (List UInt8)} : ∀ {out : List UInt8},
    out.length % dataAlign = 0 → appendBlobs out blobs = out ++ blobs.flatMap padded := by
  induction blobs with
  | nil =>
    intro out _
    exact (append_nil out).symm
  | cons blob blobs ih =>
    intro out aligned
    have next : (padded (out ++ blob)).length % dataAlign = 0 := by
      rw [length_padded]
      exact alignUp_mod _
    have step : appendBlobs out (blob :: blobs) = appendBlobs (padded (out ++ blob)) blobs := rfl
    rw [step, ih next, padded_append aligned, flatMap_cons, append_assoc]

/-! ## Offsets of the modules -/

def offsetAt : Nat → List (List UInt8) → Nat → Nat
  | cur, [], _ => cur
  | cur, _ :: _, 0 => cur
  | cur, blob :: rest, i + 1 => offsetAt (alignUp (cur + blob.length) dataAlign) rest i

theorem flatMap_padded_get {blobs : List (List UInt8)} : ∀ {cur i : Nat} {blob : List UInt8},
    cur % dataAlign = 0 → blobs[i]? = some blob →
    ∃ before after, blobs.flatMap padded = before ++ blob ++ after ∧
      cur + before.length = offsetAt cur blobs i := by
  induction blobs with
  | nil =>
    intro cur i blob _ there
    cases there
  | cons first blobs ih =>
    intro cur i blob aligned there
    cases i with
    | zero =>
      cases there
      refine ⟨[], replicate (alignUp first.length dataAlign - first.length) 0 ++
        blobs.flatMap padded, ?_, rfl⟩
      rw [flatMap_cons, padded]
      simp
    | succ i =>
      obtain ⟨before, after, shape, start⟩ := ih (alignUp_mod (cur + first.length)) there
      refine ⟨padded first ++ before, after, ?_, ?_⟩
      · rw [flatMap_cons, shape]
        simp
      · rw [offsetAt, ← start, length_append, length_padded]
        rw [dataAlign] at aligned
        rw [alignUp, alignUp, dataAlign]
        omega

theorem packEntries_get {table : List (Entry × List UInt8)} :
    ∀ {cur i : Nat} {e : Entry} {blob : List UInt8}, table[i]? = some (e, blob) →
    ∃ before after, packEntries cur table =
        before ++ words [e.nameOff, e.nameLen, offsetAt cur (table.map Prod.snd) i, blob.length,
          e.flags, 0] ++ after ∧
      before.length = i * entrySize := by
  induction table with
  | nil =>
    intro cur i e blob there
    cases there
  | cons first table ih =>
    intro cur i e blob there
    obtain ⟨e₀, blob₀⟩ := first
    cases i with
    | zero =>
      cases there
      exact ⟨[], _, rfl, rfl⟩
    | succ i =>
      have next : table[i]? = some (e, blob) := there
      obtain ⟨before, after, shape, start⟩ :=
        @ih (alignUp (cur + blob₀.length) dataAlign) i e blob next
      refine ⟨words [e₀.nameOff, e₀.nameLen, cur, blob₀.length, e₀.flags, 0] ++ before, after,
        ?_, ?_⟩
      · rw [packEntries, shape]
        rfl
      · rw [length_append, start, length_words, entrySize]
        change 24 + i * 24 = (i + 1) * 24
        omega

theorem length_packEntries {table : List (Entry × List UInt8)} : ∀ {cur : Nat},
    (packEntries cur table).length = table.length * entrySize := by
  induction table with
  | nil => exact fun {_} => (zero_mul _).symm
  | cons first table ih =>
    intro cur
    rw [packEntries, length_append, ih, length_words, length_cons, entrySize]
    change 24 + table.length * 24 = (table.length + 1) * 24
    omega

/-! ## The whole archive -/

/-- What an archive is made from: as many modules as entries. -/
structure Parts where
  entries : List Entry
  names : List UInt8
  blobs : List (List UInt8)
  paired : blobs.length = entries.length

namespace Parts

variable (p : Parts)

def namesOff : Nat := headerSize + p.entries.length * entrySize

def dataOff : Nat := alignUp (p.namesOff + p.names.length) dataAlign

def table : List (Entry × List UInt8) := p.entries.zip p.blobs

def gap : List UInt8 :=
  List.replicate (p.dataOff - (p.namesOff + p.names.length)) 0

def body : List UInt8 :=
  packEntries p.dataOff p.table ++ p.names ++ p.gap ++ p.blobs.flatMap padded

def total : Nat := headerSize + p.body.length

/-- The archive with a checksum. -/
def image (crc : Nat) : List UInt8 :=
  words [cctkfsMagic, 1, p.total, p.entries.length, headerSize, p.namesOff, p.names.length, crc] ++
    p.body

/-- The archive as it is written. -/
def written : List UInt8 := p.image (crc32 (p.image 0)).toNat

def offset (i : Nat) : Nat := offsetAt p.dataOff p.blobs i

/-- Entry `i` as it is written. -/
def entryAt (i : Nat) (e : Entry) (blob : List UInt8) : Entry :=
  { e with dataOff := p.offset i, dataSize := blob.length }

theorem length_table : p.table.length = p.entries.length := by
  rw [table, length_zip, p.paired, min_self]

theorem map_table : p.table.map Prod.snd = p.blobs := by
  rw [table, map_snd_zip (le_of_eq p.paired)]

theorem length_packed : (packEntries p.dataOff p.table).length = p.entries.length * entrySize := by
  rw [length_packEntries, p.length_table]

theorem length_image (crc : Nat) : (p.image crc).length = p.total := by
  rw [image, length_append, length_words]
  rfl

/-- The words of the header. -/
def header (total crc : Nat) : List Nat :=
  [cctkfsMagic, 1, total, p.entries.length, headerSize, p.namesOff, p.names.length, crc]

theorem length_front (total crc : Nat) :
    (words (p.header total crc) ++ packEntries p.dataOff p.table).length = p.namesOff := by
  rw [length_append, length_words, p.length_packed]
  rfl

theorem layOut_eq :
    layOut p.entries p.names.length p.names p.blobs = words (p.header 0 0) ++ p.body := by
  have namesOff : alignUp (headerSize + p.entries.length * entrySize) nameAlign = p.namesOff := by
    rw [Parts.namesOff, alignUp, headerSize, entrySize, nameAlign]
    omega
  rw [layOut]
  simp only [namesOff]
  change appendBlobs (padded (words (p.header 0 0) ++ packEntries p.dataOff p.table ++ p.names))
    p.blobs = _
  rw [appendBlobs_eq (by rw [length_padded]; exact alignUp_mod _), padded, length_append,
    p.length_front, body]
  rfl

theorem length_layOut : (layOut p.entries p.names.length p.names p.blobs).length = p.total := by
  rw [p.layOut_eq, length_append, length_words]
  rfl

theorem finish_layOut (small : p.total < 2 ^ 32) :
    finish (layOut p.entries p.names.length p.names p.blobs) = some p.written := by
  have sized :
      packInto (layOut p.entries p.names.length p.names p.blobs) 8 p.total = p.image 0 := by
    rw [p.layOut_eq]
    exact packInto_words [cctkfsMagic, 1] _ _ rfl
  have checked : ∀ old crc, packInto (p.image old) cctkfsCksumOff crc = p.image crc := by
    intro old crc
    exact packInto_words [cctkfsMagic, 1, p.total, p.entries.length, headerSize, p.namesOff,
      p.names.length] [] _ rfl
  rw [finish, p.length_layOut, if_pos small, sized, setChecksum]
  rfl

/-! ## Reading it back -/

/-- Everything fits in words. -/
structure Fits : Prop where
  total : p.total < 2 ^ 32
  fields : ∀ e ∈ p.entries, e.nameOff < 2 ^ 32 ∧ e.nameLen < 2 ^ 32 ∧ e.flags < 2 ^ 32

variable {p}

theorem offsets (p : Parts) : p.namesOff = headerSize + p.entries.length * entrySize ∧
    p.namesOff + p.names.length ≤ p.dataOff ∧ p.dataOff ≤ p.total := by
  have gap := alignUp_bounds (p.namesOff + p.names.length)
  have start : p.namesOff = headerSize + p.entries.length * entrySize := rfl
  refine ⟨start, gap.1, ?_⟩
  rw [total, body, length_append, length_append, length_append, p.length_packed,
    Parts.gap, length_replicate]
  omega

theorem header_word (fits : p.Fits) {crc : Nat} (small : crc < 2 ^ 32)
    (there : (p.header p.total crc)[k]? = some value) : wordAt (p.image crc) 0 k = value := by
  have bounds := p.offsets
  have total := fits.total
  have each : ∀ value ∈ p.header p.total crc, value < 2 ^ 32 := by
    have magic : cctkfsMagic < 2 ^ 32 := by decide
    intro value member
    simp only [header, mem_cons, not_mem_nil, or_false] at member
    rw [entrySize] at bounds
    omega
  have shape : p.image crc = [] ++ words (p.header p.total crc) ++ p.body := rfl
  rw [shape]
  exact wordAt_words rfl there (each value (mem_of_getElem? there))

theorem names_slice (p : Parts) (crc : Nat) :
    slice (p.image crc) p.namesOff p.names.length = p.names := by
  have shape : p.image crc = (words (p.header p.total crc) ++ packEntries p.dataOff p.table) ++
      p.names ++ (p.gap ++ p.blobs.flatMap padded) := by
    rw [image, body]
    simp only [append_assoc]
    rfl
  rw [shape]
  exact slice_append (p.length_front _ crc) rfl

variable {blob : List UInt8} {i : Nat} {e : Entry}

theorem blob_slice (p : Parts) (crc : Nat) (there : p.blobs[i]? = some blob) :
    slice (p.image crc) (p.offset i) blob.length = blob ∧ p.offset i + blob.length ≤ p.total := by
  obtain ⟨before, after, shape, start⟩ :=
    flatMap_padded_get (alignUp_mod (p.namesOff + p.names.length)) there
  have whole : p.image crc = (words (p.header p.total crc) ++ packEntries p.dataOff p.table ++
      p.names ++ p.gap ++ before) ++ blob ++ after := by
    rw [image, body, shape]
    simp only [append_assoc]
    rfl
  have place : (words (p.header p.total crc) ++ packEntries p.dataOff p.table ++ p.names ++ p.gap ++
      before).length = p.offset i := by
    have low := p.offsets.2.1
    rw [length_append, length_append, length_append, p.length_front, gap, length_replicate]
    exact Eq.trans (by rw [dataOff] at low ⊢; omega) start
  have length := p.length_image crc
  constructor
  · rw [whole]
    exact slice_append place rfl
  · rw [whole, length_append, length_append, place] at length
    omega

theorem entry_word (fits : p.Fits) (crc : Nat) (at_i : p.table[i]? = some (e, blob))
    (there : [e.nameOff, e.nameLen, p.offset i, blob.length, e.flags, 0][k]? = some value) :
    wordAt (p.image crc) (headerSize + i * entrySize) k = value := by
  obtain ⟨before, after, shape, start⟩ := @packEntries_get p.table p.dataOff i e blob at_i
  rw [p.map_table] at shape
  have member : (e, blob) ∈ p.entries.zip p.blobs := mem_of_getElem? at_i
  obtain ⟨names, lens, flags⟩ := fits.fields e (of_mem_zip member).1
  have total := fits.total
  have blob_i : p.blobs[i]? = some blob := by
    rw [← p.map_table, getElem?_map, at_i]
    rfl
  have inside := (p.blob_slice crc blob_i).2
  have each : ∀ value ∈ [e.nameOff, e.nameLen, p.offset i, blob.length, e.flags, 0],
      value < 2 ^ 32 := by
    intro value member
    simp only [mem_cons, not_mem_nil, or_false] at member
    omega
  have whole : p.image crc = (words (p.header p.total crc) ++ before) ++
        words [e.nameOff, e.nameLen, p.offset i, blob.length, e.flags, 0] ++
        (after ++ p.names ++ p.gap ++ p.blobs.flatMap padded) := by
    rw [image, body, shape]
    simp only [append_assoc]
    rfl
  rw [whole]
  apply wordAt_words _ there (each value (mem_of_getElem? there))
  rw [length_append, start, length_words]
  rfl

theorem entry_inside (p : Parts) (crc : Nat) (inside : i < p.entries.length) :
    headerSize + i * entrySize + entrySize ≤ (p.image crc).length := by
  have bounds := p.offsets
  have step : (i + 1) * entrySize ≤ p.entries.length * entrySize := mul_le_mul_right _ inside
  rw [p.length_image, succ_mul] at *
  omega

/-- The entries with the places and sizes of the modules. -/
def rewritten (p : Parts) : List Entry := p.table.mapIdx fun i x => p.entryAt i x.1 x.2

theorem readEntry_image (fits : p.Fits) (crc : Nat) (there : p.rewritten[i]? = some e) :
    readEntry (p.image crc) headerSize i = some e := by
  rw [rewritten, getElem?_mapIdx] at there
  obtain ⟨⟨e₀, blob⟩, at_i, rfl⟩ := Option.map_eq_some_iff.mp there
  have inside : i < p.entries.length := by
    rw [← p.length_table]
    exact (List.getElem?_eq_some_iff.mp at_i).1
  rw [readEntry, if_pos (p.entry_inside crc inside),
    entry_word fits crc at_i (k := 0) rfl, entry_word fits crc at_i (k := 1) rfl,
    entry_word fits crc at_i (k := 2) rfl, entry_word fits crc at_i (k := 3) rfl,
    entry_word fits crc at_i (k := 4) rfl]
  rfl

theorem length_rewritten (p : Parts) : p.rewritten.length = p.entries.length := by
  rw [rewritten, length_mapIdx, p.length_table]

theorem rewritten_get (p : Parts) (there : p.rewritten[i]? = some e) :
    ∃ e₀ blob, p.table[i]? = some (e₀, blob) ∧ e = p.entryAt i e₀ blob := by
  rw [rewritten, getElem?_mapIdx] at there
  obtain ⟨⟨e₀, blob⟩, at_i, rfl⟩ := Option.map_eq_some_iff.mp there
  exact ⟨e₀, blob, at_i, rfl⟩

theorem table_get (p : Parts) (there : p.table[i]? = some (e, blob)) :
    p.entries[i]? = some e ∧ p.blobs[i]? = some blob := by
  rw [table, getElem?_zip_eq_some] at there
  exact there

end Parts

theorem map_range {α : Type} {f : Nat → α} {l : List α}
    (each : ∀ i a, l[i]? = some a → f i = a) : (List.range l.length).map f = l := by
  apply ext_getElem?
  intro i
  rw [getElem?_map]
  cases there : l[i]? with
  | none =>
    rw [getElem?_eq_none_iff] at there
    rw [getElem?_eq_none (by rw [length_range]; exact there)]
    rfl
  | some a =>
    rw [getElem?_range (List.getElem?_eq_some_iff.mp there).1]
    exact congrArg some (each i a there)

theorem mapM_range {α : Type} {f : Nat → Option α} {l : List α}
    (each : ∀ i a, l[i]? = some a → f i = some a) : (List.range l.length).mapM f = some l := by
  have from_start : ∀ (l : List α) (s : Nat), (∀ i a, l[i]? = some a → f (s + i) = some a) →
      (range' s l.length).mapM f = some l := by
    intro l
    induction l with
    | nil => exact fun _ _ => rfl
    | cons a l ih =>
      intro s each
      have first : f s = some a := each 0 a rfl
      have rest := ih (s + 1) fun i b there => by
        rw [add_right_comm, add_assoc]
        exact each (i + 1) b there
      rw [length_cons, range'_succ, mapM_cons, first, rest]
      rfl
  rw [range_eq_range']
  apply from_start l 0
  intro i a there
  rw [zero_add]
  exact each i a there

namespace Parts

variable {p : Parts}

theorem readArchive_image (fits : p.Fits) {crc : Nat} (small : crc < 2 ^ 32) :
    readArchive (p.image crc) = some (p.rewritten, p.names, p.blobs) := by
  have bounds := p.offsets
  have long : ¬ (p.image crc).length < headerSize := by
    rw [p.length_image]
    omega
  have entries : (range p.entries.length).mapM (readEntry (p.image crc) headerSize) =
      some p.rewritten := by
    rw [← p.length_rewritten]
    exact mapM_range fun i e there => readEntry_image fits crc there
  have modules : (p.rewritten.map fun e => slice (p.image crc) e.dataOff e.dataSize) = p.blobs := by
    apply ext_getElem?
    intro i
    rw [getElem?_map]
    cases there : p.rewritten[i]? with
    | none =>
      rw [getElem?_eq_none_iff, p.length_rewritten, ← p.paired] at there
      rw [getElem?_eq_none there]
      rfl
    | some e =>
      obtain ⟨e₀, blob, at_i, rfl⟩ := p.rewritten_get there
      have blob_i := (p.table_get at_i).2
      rw [blob_i]
      exact congrArg some (p.blob_slice crc blob_i).1
  rw [readArchive, if_neg long, header_word fits small (k := 0) rfl, if_neg (by simp),
    header_word fits small (k := 3) rfl, header_word fits small (k := 4) rfl,
    header_word fits small (k := 5) rfl, header_word fits small (k := 6) rfl, entries]
  change some (p.rewritten, slice (p.image crc) p.namesOff p.names.length, _) = _
  rw [p.names_slice, modules]

theorem crc_lt (data : List UInt8) : (crc32 data).toNat < 2 ^ 32 := (crc32 data).isLt

/-! ## Writing it again -/

theorem packEntries_congr {t t' : List (Entry × List UInt8)} {cur : Nat} :
    (t.map fun x => (x.1.nameOff, x.1.nameLen, x.1.flags, x.2)) =
      (t'.map fun x => (x.1.nameOff, x.1.nameLen, x.1.flags, x.2)) →
    packEntries cur t = packEntries cur t' := by
  induction t generalizing t' cur with
  | nil =>
    intro same
    rw [map_nil, eq_comm, map_eq_nil_iff] at same
    rw [same]
  | cons x t ih =>
    intro same
    cases t' with
    | nil => cases same
    | cons x' t' =>
      obtain ⟨e, blob⟩ := x
      obtain ⟨head, tail⟩ := cons.inj same
      simp only [Prod.mk.injEq] at head
      obtain ⟨nameOff, nameLen, flags, rfl⟩ := head
      rw [packEntries, packEntries, nameOff, nameLen, flags, ih tail]

/-- The parts that are read from a written archive. -/
def again (p : Parts) : Parts :=
  ⟨p.rewritten, p.names, p.blobs, p.paired.trans p.length_rewritten.symm⟩

theorem again_written (p : Parts) : p.again.written = p.written := by
  have namesOff : p.again.namesOff = p.namesOff := by
    rw [Parts.namesOff, Parts.namesOff]
    change headerSize + p.rewritten.length * entrySize = _
    rw [p.length_rewritten]
  have dataOff : p.again.dataOff = p.dataOff := by
    rw [Parts.dataOff, namesOff]
    rfl
  have packed : packEntries p.again.dataOff p.again.table = packEntries p.dataOff p.table := by
    rw [dataOff]
    apply packEntries_congr
    apply ext_getElem?
    intro i
    rw [getElem?_map, getElem?_map]
    have here : p.again.table[i]? = p.table[i]?.map fun x => (p.entryAt i x.1 x.2, x.2) := by
      cases at_i : p.table[i]? with
      | none =>
        rw [getElem?_eq_none_iff, p.length_table, ← p.length_rewritten] at at_i
        apply getElem?_eq_none
        rw [p.again.length_table]
        exact at_i
      | some x =>
        apply getElem?_zip_eq_some.mpr
        refine ⟨?_, (p.table_get at_i).2⟩
        change p.rewritten[i]? = _
        rw [rewritten, getElem?_mapIdx, at_i]
        rfl
    rw [here]
    cases p.table[i]? <;> rfl
  have body : p.again.body = p.body := by
    rw [Parts.body, packed, Parts.body, Parts.gap, Parts.gap, dataOff, namesOff]
    rfl
  have image : ∀ crc, p.again.image crc = p.image crc := by
    intro crc
    rw [Parts.image, Parts.image, total, total, namesOff, body]
    change words [cctkfsMagic, 1, headerSize + p.body.length, p.rewritten.length,
      _, _, _, _] ++ _ = _
    rw [p.length_rewritten]
    rfl
  rw [written, written, image, image]

end Parts

end CactKernel.Initfs
