import CactKernel.Block.Partition

/-! # Partitions stay inside their disk

What one call of the block layer can do to the table is said once: it moves
sectors and leaves the table as it is (`Moves`), or it keeps the layout of the
table well formed (`WellFormed`). Both hold of every step, so of every run. -/

set_option autoImplicit false

namespace CactKernel.Block

open List Option Function Nat UInt32

variable {i disk : Nat}

namespace Blk

/-- The device in slot `i` is a non-empty part of the disk it points to. -/
structure Contained (b : Blk) (i disk : Nat) : Prop where
  used : b.used disk = true
  whole : (b.devices disk).parent = none
  nonempty : 0 < (b.devices i).maxLba.toNat
  inside : (b.devices i).startLba.toNat + (b.devices i).maxLba.toNat ≤
    (b.devices disk).maxLba.toNat

structure WellFormed (b : Blk) : Prop where
  part : ∀ {i disk : Nat}, (b.devices i).parent = some disk → b.Contained i disk
  free : ∀ {i : Nat}, b.used i = false → (b.devices i).maxLba = 0 ∧ (b.devices i).parent = none
  bound : ∀ {i : Nat}, b.used i = true → i < blkdevSlots

variable {b b' : Blk}

theorem Contained.congr (within : b.Contained i disk) (used : b'.used disk = b.used disk)
    (owner : b'.devices disk = b.devices disk) (device : b'.devices i = b.devices i) :
    b'.Contained i disk := by
  obtain ⟨isUsed, whole, nonempty, inside⟩ := within
  rw [← used] at isUsed
  rw [← owner] at whole inside
  rw [← device] at nonempty inside
  exact ⟨isUsed, whole, nonempty, inside⟩

/-- Sector `lba` of controller `c` belongs to device `dev`: to the disk itself, or to the
range of the partition. -/
def Owns (b : Blk) (dev : Nat) (a : Access) : Prop :=
  match (b.devices dev).parent with
  | none => (b.devices dev).controller = some a.controller ∧ a.lba < (b.devices dev).maxLba
  | some disk => (b.devices disk).controller = some a.controller ∧
      (b.devices dev).startLba.toNat ≤ a.lba.toNat ∧
      a.lba.toNat < (b.devices dev).startLba.toNat + (b.devices dev).maxLba.toNat

/-- From `b` to `b'` sectors were read and written, all of them with `P`, and nothing else
happened to the table. -/
structure Moves (P : Access → Prop) (b b' : Blk) : Prop where
  devices : b'.devices = b.devices
  used : b'.used = b.used
  log : ∃ new, b'.log = new ++ b.log ∧ ∀ a ∈ new, P a

namespace Moves

variable {P : Access → Prop} {b b' b'' : Blk}

theorem refl : Moves P b b := ⟨rfl, rfl, [], rfl, by simp⟩

theorem trans (first : Moves P b b') (second : Moves P b' b'') : Moves P b b'' := by
  obtain ⟨new, log, owned⟩ := first.log
  obtain ⟨new', log', owned'⟩ := second.log
  have joined : b''.log = (new' ++ new) ++ b.log := by rw [log', log, append_assoc]
  have all : ∀ a ∈ new' ++ new, P a := by
    intro a member
    rcases mem_append.mp member with late | early
    · exact owned' a late
    · exact owned a early
  exact ⟨second.devices.trans first.devices, second.used.trans first.used, _, joined, all⟩

theorem single {a : Access} (devices : b'.devices = b.devices) (used : b'.used = b.used)
    (log : b'.log = a :: b.log) (owned : P a) : Moves P b b' :=
  ⟨devices, used, [a], log, by simpa using owned⟩

theorem owns (moves : Moves P b b') (dev : Nat) : b'.Owns dev = b.Owns dev := by
  funext a
  simp only [Owns, moves.devices]

end Moves

/-! ## What the layout depends on -/

/-- The fields that say where a device lies. -/
def layout (b : Blk) (i : Nat) : Bool × UInt32 × Option Nat × UInt32 :=
  (b.used i, (b.devices i).maxLba, (b.devices i).parent, (b.devices i).startLba)

theorem WellFormed.of_layout (wf : b.WellFormed) (same : ∀ i, b'.layout i = b.layout i) :
    b'.WellFormed := by
  simp only [layout, Prod.mk.injEq, forall_and] at same
  obtain ⟨used, maxLba, parent, startLba⟩ := same
  constructor
  · intro i disk part
    rw [parent] at part
    obtain ⟨isUsed, whole, nonempty, inside⟩ := wf.part part
    rw [← used] at isUsed
    rw [← parent] at whole
    rw [← maxLba] at nonempty
    rw [← startLba, ← maxLba, ← maxLba] at inside
    exact ⟨isUsed, whole, nonempty, inside⟩
  · intro i unused
    rw [used] at unused
    rw [maxLba, parent]
    exact wf.free unused
  · intro i isUsed
    rw [used] at isUsed
    exact wf.bound isUsed

theorem WellFormed.of_eq (wf : b.WellFormed) (devices : b'.devices = b.devices)
    (used : b'.used = b.used) : b'.WellFormed :=
  wf.of_layout fun i => by rw [layout, devices, used]; rfl

theorem WellFormed.of_update {d : Device} (wf : b.WellFormed) (used : b'.used = b.used)
    (devices : b'.devices = Function.update b.devices i d)
    (maxLba : d.maxLba = (b.devices i).maxLba) (parent : d.parent = (b.devices i).parent)
    (startLba : d.startLba = (b.devices i).startLba) : b'.WellFormed := by
  refine wf.of_layout ?_
  simp only [layout, used, devices]
  refine (forall_update_iff b.devices fun j d =>
    (b.used j, d.maxLba, d.parent, d.startLba) = b.layout j).mpr ⟨?_, fun _ _ => rfl⟩
  rw [maxLba, parent, startLba]
  rfl

theorem Moves.wellFormed {P : Access → Prop} (moves : Moves P b b') (wf : b.WellFormed) :
    b'.WellFormed :=
  wf.of_eq moves.devices moves.used

namespace WellFormed

variable {b : Blk}

theorem used_of_maxLba (wf : b.WellFormed) (some : (b.devices i).maxLba ≠ 0) :
    b.used i = true := by
  cases unused : b.used i with
  | true => rfl
  | false => exact absurd (wf.free unused).1 some

theorem used_of_parent (wf : b.WellFormed)
    (part : (b.devices i).parent = some disk) : b.used i = true := by
  apply wf.used_of_maxLba
  intro empty
  have nonempty := (wf.part part).nonempty
  rw [empty] at nonempty
  exact absurd nonempty (by decide)

/-! ## Sector I/O ends, and stays in the device -/

theorem plba_toNat {start lba : UInt32}
    (small : ¬ start.toUInt64 + lba.toUInt64 > 0xFFFFFFFF) :
    (start.toUInt64 + lba.toUInt64).toUInt32.toNat = start.toNat + lba.toNat := by
  have start_small := start.toNat_lt
  have lba_small := lba.toNat_lt
  have sum : (start.toUInt64 + lba.toUInt64).toNat = start.toNat + lba.toNat := by
    rw [UInt64.toNat_add, toNat_toUInt64, toNat_toUInt64, mod_eq_of_lt (by omega)]
  have below : ¬ 0xFFFFFFFF < (start.toUInt64 + lba.toUInt64).toNat := by
    intro large
    exact small (UInt64.lt_iff_toNat_lt.mpr large)
  rw [UInt64.toNat_toUInt32, sum, mod_eq_of_lt (by omega)]

theorem disk_io {α : Type} (callback : Nat → UInt32 → α) {dev : Nat}
    (whole : (b.devices dev).parent = none) (fuel : Nat) (lba : UInt32) :
    ∃ answer, b.blkdevIo callback (fuel + 1) dev lba = some answer ∧
      ∀ x, answer = some x → lba < (b.devices dev).maxLba ∧
        ∃ c, (b.devices dev).controller = some c ∧ x = callback c lba := by
  rw [blkdevIo]
  by_cases outside : (b.devices dev).maxLba ≤ lba
  · rw [if_pos outside]
    exact ⟨none, rfl, by simp⟩
  rw [if_neg outside, whole]
  refine ⟨_, rfl, ?_⟩
  intro x answered
  obtain ⟨c, controller, same⟩ := map_eq_some_iff.mp answered
  exact ⟨UInt32.not_le.mp outside, c, controller, same.symm⟩

theorem io (wf : b.WellFormed) {α : Type} (callback : Nat → UInt32 → α) (dev : Nat)
    (lba : UInt32) (write : Bool) :
    ∃ answer, b.blkdevIo callback (blkdevSlots + 1) dev lba = some answer ∧
      ∀ x, answer = some x → ∃ c at_, b.Owns dev ⟨c, at_, write⟩ ∧ x = callback c at_ := by
  cases parent : (b.devices dev).parent with
  | none =>
    obtain ⟨answer, run, reached⟩ := disk_io callback parent blkdevSlots lba
    refine ⟨answer, run, ?_⟩
    intro x answered
    obtain ⟨inside, c, controller, same⟩ := reached x answered
    have owns : b.Owns dev ⟨c, lba, write⟩ := by
      simp only [Owns, parent]
      exact ⟨controller, inside⟩
    exact ⟨c, lba, owns, same⟩
  | some disk =>
    rw [blkdevIo]
    by_cases outside : (b.devices dev).maxLba ≤ lba
    · rw [if_pos outside]
      exact ⟨none, rfl, by simp⟩
    rw [if_neg outside, parent]
    dsimp only
    by_cases large : (b.devices dev).startLba.toUInt64 + lba.toUInt64 > 0xFFFFFFFF
    · rw [if_pos large]
      exact ⟨none, rfl, by simp⟩
    rw [if_neg large]
    have whole := (wf.part parent).whole
    obtain ⟨answer, run, reached⟩ := disk_io callback whole 135
      ((b.devices dev).startLba.toUInt64 + lba.toUInt64).toUInt32
    refine ⟨answer, run, ?_⟩
    intro x answered
    obtain ⟨_, c, controller, same⟩ := reached x answered
    have inside : lba.toNat < (b.devices dev).maxLba.toNat :=
      UInt32.lt_iff_toNat_lt.mp (UInt32.not_le.mp outside)
    refine ⟨c, _, ?_, same⟩
    simp only [Owns, parent]
    rw [plba_toNat large]
    exact ⟨controller, by omega, by omega⟩

theorem read (wf : b.WellFormed) (dev : Nat) (lba : UInt32) :
    ∃ answer, b.blkdevRead dev lba = some answer ∧
      Moves (b.Owns dev) b (answer.getD (.zero, b)).2 := by
  obtain ⟨answer, run, reached⟩ :=
    wf.io (fun c lba => (b.media c lba, b.touch ⟨c, lba, false⟩)) dev lba false
  refine ⟨answer, run, ?_⟩
  cases answer with
  | none => exact .refl
  | some found =>
    obtain ⟨c, lba, owns, rfl⟩ := reached _ rfl
    exact .single rfl rfl rfl owns

theorem write (wf : b.WellFormed) (dev : Nat) (lba : UInt32) (buf : Bytes) :
    ∃ answer, b.blkdevWrite dev lba buf = some answer ∧
      Moves (b.Owns dev) b (answer.getD b) := by
  obtain ⟨answer, run, reached⟩ := wf.io (fun c lba => b.storeSector c lba buf) dev lba true
  refine ⟨answer, run, ?_⟩
  cases answer with
  | none => exact .refl
  | some b' =>
    obtain ⟨c, lba, owns, rfl⟩ := reached _ rfl
    exact .single rfl rfl rfl owns

end WellFormed

end Blk

/-! ## The loop of `part_rw` -/

namespace Transfer

variable {size : UInt32}

theorem chunk_toNat {t : Transfer} (more : t.done < size) (soff : t.soff < 512) :
    0 < (t.chunk size).toNat ∧ t.done.toNat + (t.chunk size).toNat ≤ size.toNat := by
  have more_nat := UInt32.lt_iff_toNat_lt.mp more
  have soff_nat : t.soff.toNat < 512 := UInt32.lt_iff_toNat_lt.mp soff
  have want : (size - t.done).toNat = size.toNat - t.done.toNat :=
    UInt32.toNat_sub_of_le _ _ (UInt32.le_of_lt more)
  have avail : (512 - t.soff).toNat = 512 - t.soff.toNat :=
    UInt32.toNat_sub_of_le _ _ (UInt32.le_of_lt soff)
  by_cases short : size - t.done < 512 - t.soff
  · rw [chunk, if_pos short, want]
    omega
  have long := UInt32.le_iff_toNat_le.mp (UInt32.not_lt.mp short)
  rw [chunk, if_neg short, avail]
  omega

/-- A round that stays in the loop has moved bytes. -/
def Forward (t t' : Transfer) (size : UInt32) : Prop :=
  t.done.toNat < t'.done.toNat ∧ t'.done.toNat ≤ size.toNat ∧ t'.soff < 512

theorem forward_advance {t : Transfer} (more : t.done < size) (soff : t.soff < 512) (blk : Blk)
    (buf : Bytes) : t.Forward (t.advance blk buf (t.chunk size)) size := by
  obtain ⟨some, fits⟩ := chunk_toNat more soff
  have small := size.toNat_lt
  have sum : (t.done + t.chunk size).toNat = t.done.toNat + (t.chunk size).toNat := by
    rw [UInt32.toNat_add, Nat.mod_eq_of_lt (by omega)]
  have soff_zero : (0 : UInt32) < 512 := by decide
  simp only [Forward, advance, sum]
  exact ⟨by omega, fits, soff_zero⟩

variable {t : Transfer} {size : UInt32}

theorem sector_ends (wf : t.blk.WellFormed) (more : t.done < size) (soff : t.soff < 512)
    (dev : Nat) (lba : UInt32) (wr : Bool) :
    ∃ go t', t.sector dev lba size wr = some (go, t') ∧
      t.blk.Moves (t.blk.Owns dev) t'.blk ∧ (go = true → t.Forward t' size) := by
  have forward := forward_advance more soff
  rw [sector]
  generalize t.chunk size = chunk at forward ⊢
  cases wr with
  | false =>
    obtain ⟨answer, run, moves⟩ := wf.read dev lba
    rw [run]
    cases answer with
    | none => exact ⟨false, t, rfl, .refl, by simp⟩
    | some found => exact ⟨true, _, rfl, moves, fun _ => forward _ _⟩
  | true =>
    rw [if_pos rfl]
    by_cases full : t.soff = 0 ∧ chunk = 512
    · rw [if_pos full]
      obtain ⟨answer, run, moves⟩ := wf.write dev lba (t.buf.drop t.done.toNat)
      rw [run]
      cases answer with
      | none => exact ⟨false, t, rfl, .refl, by simp⟩
      | some b => exact ⟨true, _, rfl, moves, fun _ => forward _ _⟩
    rw [if_neg full]
    obtain ⟨answer, run, moves⟩ := wf.read dev lba
    rw [run]
    dsimp only
    -- a sector that could not be read is taken to be zero and written all the same
    generalize answer.getD (.zero, t.blk) = found at moves
    obtain ⟨written, run', moves'⟩ := (moves.wellFormed wf).write dev lba
      (found.1.copy t.soff.toNat chunk.toNat (t.buf.drop t.done.toNat))
    rw [run']
    cases written with
    | none => exact ⟨false, _, rfl, moves, by simp⟩
    | some b =>
      have both := moves.trans (moves.owns dev ▸ moves')
      exact ⟨true, _, rfl, both, fun _ => forward _ _⟩

theorem rounds_end (dev : Nat) (wr : Bool) (n : Nat) (lba : UInt32) (t : Transfer)
    (wf : t.blk.WellFormed) (soff : t.soff < 512) (enough : size.toNat - t.done.toNat < n) :
    ∃ t', rounds dev size wr n lba t = some t' ∧ t.blk.Moves (t.blk.Owns dev) t'.blk := by
  induction n generalizing lba t with
  | zero => exact absurd enough (not_lt_zero _)
  | succ n ih =>
    rw [rounds]
    by_cases more : t.done < size
    · rw [if_pos more]
      obtain ⟨go, t', run, moves, forward⟩ := sector_ends wf more soff dev lba wr
      rw [run]
      cases go with
      | false => exact ⟨t', rfl, moves⟩
      | true =>
        obtain ⟨further, most, soff'⟩ := forward rfl
        obtain ⟨last, rest, moves'⟩ := ih (lba + 1) t' (moves.wellFormed wf) soff' (by omega)
        exact ⟨last, rest, moves.trans (moves.owns dev ▸ moves')⟩
    · rw [if_neg more]
      exact ⟨t, rfl, .refl⟩

end Transfer

namespace Blk

variable {b : Blk}

theorem WellFormed.partRw (wf : b.WellFormed) (dev : Nat) (off size : UInt32) (buf : Bytes)
    (wr : Bool) :
    ∃ t, b.partRw dev off size buf wr = some t ∧ b.Moves (b.Owns dev) t.blk := by
  rw [Blk.partRw]
  by_cases empty : size = 0
  · rw [if_pos empty]
    exact ⟨_, rfl, .refl⟩
  rw [if_neg empty]
  have soff : off % 512 < 512 := by
    rw [UInt32.lt_iff_toNat_lt, UInt32.toNat_mod]
    exact mod_lt _ (by decide)
  exact Transfer.rounds_end dev wr (size.toNat + 1) (off / 512) ⟨b, buf, 0, off % 512⟩ wf soff
    (lt_succ_of_le (sub_le _ _))

/-! ## Scans -/

/-- The call ends and leaves a well-formed table. -/
abbrev Ends {α : Type} (call : Option (α × Blk)) : Prop := ∃ r, call = some r ∧ r.2.WellFormed

theorem Ends.table {α : Type} {call : Option (α × Blk)} (ends : Ends call) :
    ∃ b', call.map Prod.snd = some b' ∧ b'.WellFormed := by
  obtain ⟨r, run, kept⟩ := ends
  exact ⟨r.2, by rw [run]; rfl, kept⟩

theorem allocSlot_some (found : b.allocSlot = some i) :
    i < blkdevSlots ∧ b.used i = false := by
  have member := mem_of_find?_eq_some found
  have unused := find?_some found
  exact ⟨mem_range.mp member, by simpa using unused⟩

theorem setDevice_at (b : Blk) (i j : Nat) (used : Bool) (d : Device) :
    (b.setDevice i used d).devices j = if j = i then d else b.devices j :=
  update_apply ..

theorem setDevice_used_at (b : Blk) (i j : Nat) (used : Bool) (d : Device) :
    (b.setDevice i used d).used j = if j = i then used else b.used j :=
  update_apply ..

theorem Contained.setDevice {j : Nat} {used : Bool} {d : Device} (within : b.Contained j disk)
    (owner : disk ≠ i) (device : j ≠ i) : (b.setDevice i used d).Contained j disk :=
  within.congr (update_of_ne owner ..) (update_of_ne owner ..) (update_of_ne device ..)

namespace WellFormed

theorem ne_of_unused (unused : b.used i = false) (used : b.used disk = true) : disk ≠ i := by
  rintro rfl
  cases unused.symm.trans used

theorem apart_unused (wf : b.WellFormed) (unused : b.used i = false) {j : Nat}
    (part : (b.devices j).parent = some disk) : disk ≠ i :=
  ne_of_unused unused (wf.part part).used

theorem setDevice (wf : b.WellFormed) (used : Bool) {d : Device}
    (bound : used = true → i < blkdevSlots)
    (free : used = false → d.maxLba = 0 ∧ d.parent = none)
    (apart : ∀ {j disk}, (b.devices j).parent = some disk → disk ≠ i)
    (place : ∀ disk, d.parent = some disk → disk ≠ i ∧ b.used disk = true ∧
      (b.devices disk).parent = none ∧ 0 < d.maxLba.toNat ∧
      d.startLba.toNat + d.maxLba.toNat ≤ (b.devices disk).maxLba.toNat) :
    (b.setDevice i used d).WellFormed := by
  constructor
  · intro j disk part
    rw [setDevice_at] at part
    by_cases same : j = i
    · rw [if_pos same] at part
      obtain ⟨other, isUsed, whole, nonempty, inside⟩ := place disk part
      constructor
      · rw [setDevice_used_at, if_neg other]; exact isUsed
      · rw [setDevice_at, if_neg other]; exact whole
      · rw [setDevice_at, if_pos same]; exact nonempty
      · rw [setDevice_at, setDevice_at, if_pos same, if_neg other]; exact inside
    · rw [if_neg same] at part
      exact (wf.part part).setDevice (apart part) same
  · intro j unused
    rw [setDevice_used_at] at unused
    rw [setDevice_at]
    by_cases same : j = i
    · rw [if_pos same] at unused ⊢
      exact free unused
    · rw [if_neg same] at unused ⊢
      exact wf.free unused
  · intro j isUsed
    rw [setDevice_used_at] at isUsed
    split at isUsed
    · rename_i same
      rw [same]
      exact bound isUsed
    · exact wf.bound isUsed

theorem addPartition (wf : b.WellFormed) (disk : Nat) (partNo startLba lenLba : UInt32)
    (ptype : UInt8) (table : PartTable) :
    (b.blkdevAddPartition disk partNo startLba lenLba ptype table).2.WellFormed := by
  rw [blkdevAddPartition]
  by_cases bad : (b.devices disk).parent.isSome ∨ partNo = 0 ∨ lenLba = 0
  · rw [if_pos bad]; exact wf
  rw [if_neg bad]
  by_cases full : b.blkdevPartCount disk ≥ blkdevPartsPerDisk
  · rw [if_pos full]; exact wf
  rw [if_neg full]
  by_cases outside : startLba ≥ (b.devices disk).maxLba ∨
      lenLba > (b.devices disk).maxLba - startLba
  · rw [if_pos outside]; exact wf
  rw [if_neg outside]
  by_cases taken : (b.blkdevFind (blkdevPartitionName (b.devices disk).name partNo)).isSome
  · rw [if_pos taken]; exact wf
  rw [if_neg taken]
  cases slot : b.allocSlot with
  | none => exact wf
  | some idx =>
    obtain ⟨bound, unused⟩ := allocSlot_some slot
    refine wf.setDevice true (fun _ => bound) nofun (wf.apart_unused unused) ?_
    intro owner same
    cases same
    rw [not_or, not_or] at bad
    rw [not_or] at outside
    have below : startLba < (b.devices disk).maxLba := UInt32.not_le.mp outside.1
    have fits : lenLba.toNat ≤ (b.devices disk).maxLba.toNat - startLba.toNat := by
      rw [← UInt32.toNat_sub_of_le _ _ (UInt32.le_of_lt below)]
      exact UInt32.le_iff_toNat_le.mp (UInt32.not_lt.mp outside.2)
    have below_nat := UInt32.lt_iff_toNat_lt.mp below
    have used : b.used disk = true := by
      apply wf.used_of_maxLba
      intro empty
      rw [empty] at below_nat
      exact absurd below_nat (Nat.not_lt_zero _)
    have nonempty : 0 < lenLba.toNat := by
      apply Nat.pos_of_ne_zero
      intro zero
      exact bad.2.2 (UInt32.toNat_inj.mp zero)
    exact ⟨ne_of_unused unused used, used, by simpa using bad.1, nonempty, by dsimp only; omega⟩

end WellFormed

namespace WellFormed

theorem setTable (wf : b.WellFormed) (disk : Nat) (table : PartTable) :
    (b.setTable disk table).WellFormed :=
  wf.of_update rfl rfl rfl rfl rfl

theorem registerChrdev (wf : b.WellFormed) (name : List Char) (priv : Option Nat) (heap : Bool) :
    (b.registerChrdev name priv heap).2.WellFormed := by
  rw [Blk.registerChrdev]
  split
  · exact wf
  split
  · exact wf.of_eq rfl rfl
  · exact wf

theorem devfsAdd (wf : b.WellFormed) (p : Nat) (heap : Bool) :
    (b.partDevfsAdd p heap).WellFormed := by
  rw [partDevfsAdd]
  split
  · exact wf
  have registered := wf.registerChrdev (b.devices p).name (some p) heap
  split
  · rename_i run
    rw [run] at registered
    exact registered.of_update rfl rfl rfl rfl rfl
  · rename_i run
    rw [run] at registered
    exact registered

theorem devfsRemove (wf : b.WellFormed) (p : Nat) : (b.partDevfsRemove p).WellFormed := by
  rw [partDevfsRemove]
  split
  · exact wf.of_update rfl rfl rfl rfl rfl
  · exact wf

end WellFormed

theorem clear_at (b : Blk) (disk i : Nat) :
    (b.blkdevClearPartitions disk).devices i =
      if i < blkdevSlots ∧ b.isPartOf disk i then .zero else b.devices i := rfl

theorem clear_used_at (b : Blk) (disk i : Nat) :
    (b.blkdevClearPartitions disk).used i =
      if i < blkdevSlots ∧ b.isPartOf disk i then false else b.used i := rfl

namespace WellFormed

theorem devfsRemove_all (wf : b.WellFormed) (parts : List Nat) :
    (parts.foldl partDevfsRemove b).WellFormed := by
  induction parts generalizing b with
  | nil => exact wf
  | cons p rest ih => exact ih (wf.devfsRemove p)

theorem parent_clear (wf : b.WellFormed) {owner : Nat}
    (part : ((b.blkdevClearPartitions disk).devices i).parent = some owner) :
    (b.devices i).parent = some owner ∧ owner ≠ disk ∧
      (b.blkdevClearPartitions disk).devices i = b.devices i := by
  rw [clear_at] at part ⊢
  by_cases gone : i < blkdevSlots ∧ b.isPartOf disk i
  · rw [if_pos gone] at part
    cases part
  rw [if_neg gone] at part ⊢
  have used := wf.used_of_parent part
  refine ⟨part, ?_, rfl⟩
  intro same
  rw [same] at part
  exact gone ⟨wf.bound used, by rw [isPartOf, used, part]; simp⟩

theorem clear (wf : b.WellFormed) (disk : Nat) : (b.blkdevClearPartitions disk).WellFormed := by
  constructor
  · intro i owner part
    obtain ⟨before, -, same⟩ := wf.parent_clear part
    have within := wf.part before
    have kept : ¬ (owner < blkdevSlots ∧ b.isPartOf disk owner) := by
      intro gone
      simp [isPartOf, within.whole] at gone
    exact within.congr (if_neg kept) (if_neg kept) same
  · intro i unused
    rw [clear_used_at] at unused
    rw [clear_at]
    by_cases gone : i < blkdevSlots ∧ b.isPartOf disk i
    · rw [if_pos gone]
      exact ⟨rfl, rfl⟩
    · rw [if_neg gone] at unused ⊢
      exact wf.free unused
  · intro i used
    rw [clear_used_at] at used
    by_cases gone : i < blkdevSlots ∧ b.isPartOf disk i
    · exact gone.1
    · rw [if_neg gone] at used
      exact wf.bound used

theorem dropDisk (wf : b.WellFormed) (disk : Nat) : (b.partDropDisk disk).WellFormed :=
  (wf.devfsRemove_all _).clear disk

theorem create (wf : b.WellFormed) (disk : Nat) (partNo : UInt32) (startLba lenLba : UInt64)
    (ptype : UInt8) (table : PartTable) (heap : Bool) :
    (b.partCreate disk partNo startLba lenLba ptype table heap).2.WellFormed := by
  rw [partCreate]
  split
  · exact wf
  have added := wf.addPartition disk partNo startLba.toUInt32 lenLba.toUInt32 ptype table
  split
  · rename_i b' run
    rw [run] at added
    exact added
  · rename_i p b' run
    rw [run] at added
    exact added.devfsAdd p heap

theorem count {found : Nat} {r : Bool × Blk} (wf : r.2.WellFormed) :
    (Blk.count found r).2.WellFormed := by
  obtain ⟨made, b'⟩ := r
  cases made <;> exact wf

variable {f : Found}

theorem mbrEntry (wf : f.2.WellFormed) (disk : Nat) (lba0 : Bytes) (heap : Heap)
    (i : Nat) : (parseMbrEntry disk lba0 heap f i).2.WellFormed := by
  rw [parseMbrEntry]
  split
  · exact wf
  split
  · exact wf
  · exact count (wf.create ..)

theorem gptEntry (wf : f.2.WellFormed) (disk : Nat) (entryBuf : Bytes)
    (entrySize : Nat) (heap : Heap) (i : Nat) :
    (parseGptEntry disk entryBuf entrySize heap f i).2.WellFormed := by
  rw [parseGptEntry]
  split
  · exact wf
  split
  · exact wf
  · exact count (wf.create ..)

theorem entries {entry : Found → Nat → Found}
    (kept : ∀ {f : Found} (i : Nat), f.2.WellFormed → (entry f i).2.WellFormed)
    (indices : List Nat) (wf : f.2.WellFormed) :
    (indices.foldl entry f).2.WellFormed := by
  induction indices generalizing f with
  | nil => exact wf
  | cons i rest ih => exact ih (kept i wf)

theorem readEntries_ends (disk need : Nat) (rounds got : Nat) (cur : UInt32) (buf : Bytes)
    (b : Blk) (wf : b.WellFormed) (enough : need - got < rounds) :
    ∃ buf' b', readEntries disk need rounds got cur buf b = some (buf', b') ∧
      b'.WellFormed := by
  induction rounds generalizing got cur buf b with
  | zero => exact absurd enough (not_lt_zero _)
  | succ rounds ih =>
    rw [readEntries]
    by_cases more : got < need ∧ cur < (b.devices disk).maxLba
    · rw [if_pos more]
      obtain ⟨answer, run, moves⟩ := wf.read disk cur
      rw [run]
      cases answer with
      | none => exact ⟨buf, b, rfl, wf⟩
      | some found =>
        exact ih _ _ _ _ (moves.wellFormed wf) (by omega)
    · rw [if_neg more]
      exact ⟨buf, b, rfl, wf⟩

theorem parseGpt (wf : b.WellFormed) (disk : Nat) (lba1 : Bytes) (heap : Heap) :
    Ends (b.partParseGpt disk lba1 heap) := by
  rw [partParseGpt]
  dsimp only
  split
  · exact ⟨_, rfl, wf⟩
  split
  · exact ⟨_, rfl, wf⟩
  split
  · exact ⟨_, rfl, wf⟩
  split
  · exact ⟨_, rfl, wf⟩
  split
  · generalize (GptHdr.ofBytes lba1).entrySize.toNat = size
    generalize min (GptHdr.ofBytes lba1).numEntries.toNat blkdevPartsPerDisk = number
    obtain ⟨buf, b', run, wf'⟩ := readEntries_ends disk (number * size) (number * size + 1) 0
      (GptHdr.ofBytes lba1).entriesLba.toUInt32 (heap.beyond.copy 0 (number * size) .zero) b wf
      (by omega)
    rw [run]
    exact ⟨_, rfl, entries (fun i kept => gptEntry kept disk buf size heap i) _ wf'⟩
  · exact ⟨_, rfl, wf⟩

theorem scanLabel (wf : b.WellFormed) (disk : Nat) (lba0 lba1 : Bytes) (heap : Heap) :
    Ends (b.partScanLabel disk lba0 lba1 heap) := by
  have bare := wf.setTable disk .none
  rw [partScanLabel]
  split
  · obtain ⟨f, run, parsed⟩ := bare.parseGpt disk lba1 heap
    rw [run]
    exact ⟨_, rfl, parsed.setTable disk .gpt⟩
  split
  · have parsed : ((b.setTable disk .none).partParseMbr disk lba0 heap).2.WellFormed :=
      entries (fun i kept => mbrEntry kept disk lba0 heap i) _ bare
    exact ⟨_, rfl, parsed.setTable disk .mbr⟩
  · exact ⟨_, rfl, bare⟩

theorem scanDisk (wf : b.WellFormed) (disk : Nat) (heap : Heap) :
    Ends (b.partScanDisk disk heap) := by
  rw [partScanDisk]
  split
  · exact ⟨_, rfl, wf⟩
  split
  · exact ⟨_, rfl, wf⟩
  have dropped := wf.dropDisk disk
  obtain ⟨answer, run, moves⟩ := dropped.read disk 0
  dsimp only
  rw [run]
  cases answer with
  | none => exact ⟨_, rfl, dropped⟩
  | some first =>
    have wf₁ : first.2.WellFormed := moves.wellFormed dropped
    obtain ⟨answer, run, moves⟩ := wf₁.read disk 1
    dsimp only
    rw [run]
    cases answer with
    | none => exact ⟨_, rfl, wf₁⟩
    | some second => exact (moves.wellFormed wf₁).scanLabel disk _ _ heap

theorem scanSlot_ends (heap : Nat → Heap) {sofar : Int × Blk} (wf : sofar.2.WellFormed)
    (i : Nat) : Ends (scanSlot heap sofar i) := by
  rw [scanSlot]
  split
  · exact ⟨_, rfl, wf⟩
  split
  · exact ⟨_, rfl, wf⟩
  rename_i d _ _
  obtain ⟨r, run, scanned⟩ := wf.scanDisk d (heap i)
  rw [run]
  exact ⟨_, rfl, scanned⟩

theorem scanAll (wf : b.WellFormed) (heap : Nat → Heap) :
    Ends (b.partScanAll heap) := by
  have slots : ∀ (indices : List Nat) (sofar : Int × Blk), sofar.2.WellFormed →
      Ends (indices.foldlM (scanSlot heap) sofar) := by
    intro indices
    induction indices with
    | nil => intro sofar kept; exact ⟨sofar, rfl, kept⟩
    | cons i rest ih =>
      intro sofar kept
      obtain ⟨next, run, scanned⟩ := scanSlot_ends heap kept i
      obtain ⟨r, others, last⟩ := ih next scanned
      exact ⟨r, by rw [foldlM_cons, run]; exact others, last⟩
  exact slots _ (0, b) wf

/-! ## Every step, every run -/

theorem register (wf : b.WellFormed) (name : List Char) (maxLba : UInt32)
    (controller : Option Nat) (hook : Bool) (heap : Heap) :
    Ends (b.registerBlkdev name maxLba controller hook heap) := by
  rw [registerBlkdev]
  split
  · exact ⟨_, rfl, wf⟩
  split
  · exact ⟨_, rfl, wf⟩
  cases slot : b.allocSlot with
  | none => exact ⟨_, rfl, wf⟩
  | some idx =>
    obtain ⟨bound, unused⟩ := allocSlot_some slot
    have added := wf.setDevice true (d := { Device.zero with
      name := name.take (blkdevNameMax - 1), maxLba := maxLba, controller := controller })
      (fun _ => bound) nofun (wf.apart_unused unused) nofun
    dsimp only
    generalize b.setDevice idx true _ = b₁ at added
    have booted : WellFormed { b₁ with bootDev := b₁.bootDev.or (some idx) } := added.of_eq rfl rfl
    split
    · obtain ⟨r, run, scanned⟩ := booted.scanDisk idx heap
      rw [run]
      exact ⟨_, rfl, scanned⟩
    · exact ⟨_, rfl, booted⟩

theorem unregister (wf : b.WellFormed) (name : List Char) :
    (b.unregisterBlkdev name).WellFormed := by
  rw [unregisterBlkdev]
  cases found : b.blkdevFind name with
  | none => exact wf
  | some d =>
    dsimp only
    split
    · exact wf
    have cleared := wf.clear d
    have dropped : ((b.blkdevClearPartitions d).setDevice d false .zero).WellFormed :=
      cleared.setDevice false nofun (fun _ => ⟨rfl, rfl⟩)
        (fun part => (wf.parent_clear part).2.1) nofun
    exact dropped.of_eq rfl rfl

theorem step (wf : b.WellFormed) (a : Action) : ∃ b', b.step a = some b' ∧ b'.WellFormed := by
  cases a with
  | register name maxLba controller hook heap =>
    exact (wf.register name maxLba controller hook heap).table
  | unregister name => exact ⟨_, rfl, wf.unregister name⟩
  | scan disk heap => exact (wf.scanDisk disk heap).table
  | rescan name heap =>
    have scanned : Ends (b.partRescan name heap) := by
      rw [partRescan]
      split
      · exact ⟨_, rfl, wf⟩
      split
      · exact ⟨_, rfl, wf⟩
      · exact wf.scanDisk _ heap
    exact scanned.table
  | scanAll heap => exact (wf.scanAll heap).table
  | read dev lba =>
    obtain ⟨answer, run, moves⟩ := wf.read dev lba
    refine ⟨_, by rw [Blk.step, run]; rfl, ?_⟩
    cases answer <;> exact moves.wellFormed wf
  | write dev lba buf =>
    obtain ⟨answer, run, moves⟩ := wf.write dev lba buf
    exact ⟨answer.getD b, by rw [Blk.step, run]; rfl, moves.wellFormed wf⟩
  | readSector lba =>
    rw [Blk.step, blkdevReadSector]
    split
    · exact ⟨b, rfl, wf⟩
    rename_i dev _
    obtain ⟨answer, run, moves⟩ := wf.read dev lba
    rw [run]
    exact ⟨_, rfl, moves.wellFormed wf⟩
  | writeSector lba buf =>
    rw [Blk.step, blkdevWriteSector]
    split
    · exact ⟨b, rfl, wf⟩
    rename_i dev _
    obtain ⟨answer, run, moves⟩ := wf.write dev lba buf
    rw [run]
    exact ⟨_, rfl, moves.wellFormed wf⟩
  | rw dev off size buf wr =>
    obtain ⟨t, run, moves⟩ := wf.partRw dev off size buf wr
    exact ⟨t.blk, by rw [Blk.step, run]; rfl, moves.wellFormed wf⟩

end WellFormed

end Blk

variable {b : Blk}

theorem Initial.wellFormed (initial : Initial b) : b.WellFormed := by
  obtain ⟨devices, used, -⟩ := initial
  constructor
  · intro i disk part
    rw [devices] at part
    cases part
  · intro i _
    rw [devices]
    exact ⟨rfl, rfl⟩
  · intro i taken
    rw [used] at taken
    cases taken

theorem reach_wellFormed (reached : Lib.Reach Initial Step b) : b.WellFormed := by
  apply Lib.Reach.invariant Blk.WellFormed _ _ reached
  · intro s initial
    exact initial.wellFormed
  · intro s a s' wf move
    obtain ⟨t, run, kept⟩ := wf.step a
    obtain rfl : t = s' := some.inj (run.symm.trans move)
    exact kept

/-- From `b` to `b'` the controllers were asked for sectors of disk `disk` in
`[start, start + len)` only. -/
def OnlyTouches (b b' : Blk) (disk : Nat) (start len : Nat) : Prop :=
  ∃ new, b'.log = new ++ b.log ∧ ∀ a ∈ new, (b.devices disk).controller = some a.controller ∧
    start ≤ a.lba.toNat ∧ a.lba.toNat < start + len

theorem Blk.Moves.onlyTouches {b' : Blk} (moves : b.Moves (b.Owns i) b')
    (part : (b.devices i).parent = some disk) :
    OnlyTouches b b' disk (b.devices i).startLba.toNat (b.devices i).maxLba.toNat := by
  obtain ⟨new, log, owned⟩ := moves.log
  refine ⟨new, log, ?_⟩
  intro a member
  have owns := owned a member
  simp only [Blk.Owns, part] at owns
  exact owns

/-- Whatever the labels of the disks hold, a partition is a non-empty range of its disk,
and I/O through it ends and reaches sectors of that range only. -/
theorem partition_containment {b : Blk} (reached : Lib.Reach Initial Step b) {i disk : Nat}
    (part : (b.devices i).parent = some disk) :
    b.Contained i disk ∧
    (∀ off size buf wr, ∃ t, b.partRw i off size buf wr = some t ∧
      OnlyTouches b t.blk disk (b.devices i).startLba.toNat (b.devices i).maxLba.toNat) ∧
    (∀ lba, ∃ answer, b.blkdevRead i lba = some answer ∧ ∀ sec b', answer = some (sec, b') →
      OnlyTouches b b' disk (b.devices i).startLba.toNat (b.devices i).maxLba.toNat) ∧
    (∀ lba buf, ∃ answer, b.blkdevWrite i lba buf = some answer ∧ ∀ b', answer = some b' →
      OnlyTouches b b' disk (b.devices i).startLba.toNat (b.devices i).maxLba.toNat) := by
  have wf := reach_wellFormed reached
  refine ⟨wf.part part, ?_, ?_, ?_⟩
  · intro off size buf wr
    obtain ⟨t, run, moves⟩ := wf.partRw i off size buf wr
    exact ⟨t, run, moves.onlyTouches part⟩
  · intro lba
    obtain ⟨answer, run, moves⟩ := wf.read i lba
    refine ⟨answer, run, ?_⟩
    rintro sec b' rfl
    exact moves.onlyTouches part
  · intro lba buf
    obtain ⟨answer, run, moves⟩ := wf.write i lba buf
    refine ⟨answer, run, ?_⟩
    rintro b' rfl
    exact moves.onlyTouches part

/-- A label with one partition of eight sectors behind sector 1. -/
def sampleMbr : Bytes := fun i =>
  match i with
  | 450 => 0x83
  | 454 => 2
  | 458 => 8
  | 510 => 0x55
  | 511 => 0xAA
  | _ => 0

def sampleStart : Blk where
  devices := fun _ => .zero
  used := fun _ => false
  bootDev := none
  media := fun _ lba => if lba = 0 then sampleMbr else .zero
  log := []
  devfs := []

def sampleDisk : Action :=
  .register ['s', 'd', 'a'] 16 (some 0) true ⟨true, fun _ => true, .zero⟩

theorem sampleDisk_scanned :
    ((sampleStart.step sampleDisk).map fun b =>
      ((b.devices 1).parent, (b.devices 1).startLba, (b.devices 1).maxLba)) =
      some (some 0, 2, 8) := by
  decide +kernel

theorem partition_containment_sample :
    ∃ b, Lib.Reach Initial Step b ∧ (b.devices 1).parent = some 0 ∧ b.Contained 1 0 ∧
      ∀ off size buf wr, ∃ t, b.partRw 1 off size buf wr = some t ∧
        OnlyTouches b t.blk 0 2 8 := by
  obtain ⟨b, run, fields⟩ := map_eq_some_iff.mp sampleDisk_scanned
  simp only [Prod.mk.injEq] at fields
  obtain ⟨parent, start, len⟩ := fields
  have reached : Lib.Reach Initial Step b := .next (.start ⟨rfl, rfl, rfl⟩) run
  obtain ⟨contained, transfers, -⟩ := partition_containment reached parent
  rw [start, len] at transfers
  exact ⟨b, reached, parent, contained, transfers⟩

end CactKernel.Block
