import CactKernel.Memory.HeapTiles
import Mathlib.Data.List.MinMax

/-! # What the callers of the heap get

`kmalloc_size_law`: the bytes that were asked for and the canary lie in the block, for the
sizes whose rounding does not wrap. `kfree_recognises`: over whole histories with aligned
pointers, when `kfree` gives back the block of its pointer and when it leaves the heap alone;
it goes by the words below the pointer, which the heap does not clear. -/

set_option autoImplicit false

namespace CactKernel.Heap

open Lib Lib.Program List Option Function Nat

variable {mem mem' : Memory} {b c : Block} {l l' : List Block}

/-! ## Sizes -/

/-- One free block of `l` is taken, whole or its first part; `n` bytes at `p` and the canary lie
in it, off every header. -/
def Fits (mem : Memory) (l : List Block) (p n : Nat) : Prop :=
  ∃ front b back k rest, l = front ++ b :: back ∧ b.free = true ∧ Pieces b k rest ∧
    Tiled mem (front ++ ⟨b.addr, k, false⟩ :: rest ++ back) ∧
    load32 mem (b.addr + 16 + k - 4) = tailMagic ∧ b.addr + 16 ≤ p ∧ p + n + 4 ≤ b.addr + 16 + k ∧
    ∀ x, b.addr + 16 ≤ x → x < b.addr + 16 + k →
      OffHeaders (front ++ ⟨b.addr, k, false⟩ :: rest ++ back) x

variable {p n : Nat}

theorem Fits.small (fits : Fits mem' l p n) (tiled : Tiled mem l) :
    n + 4 ≤ heapSize := by
  obtain ⟨front, b, back, k, rest, rfl, -, pieces, -, -, low, high, -⟩ := fits
  have window := tiled.window Tiled.here
  have part := pieces.le
  unfold heapSize
  omega

theorem Taken.fits {front back rest : List Block} {k : Nat}
    (taken : Taken mem mem' front b back k rest) (free : b.free = true) (room : n + 4 ≤ k) :
    Fits mem' (front ++ b :: back) (b.addr + 16) n := by
  refine ⟨front, b, back, k, rest, rfl, free, taken.pieces, taken.tiled, taken.canary,
    le_refl _, by omega, ?_⟩
  intro x low high c member
  have mine : ⟨b.addr, k, false⟩ ∈ front ++ ⟨b.addr, k, false⟩ :: rest ++ back := by simp
  exact (taken.tiled.apart mine member low high).1

variable {raw m : Nat}

theorem Fits.move (fits : Fits mem l raw m) (low : raw + 4 ≤ p)
    (high : p + n ≤ raw + m) (v : Nat) : Fits (store32 mem (p - 4) v) l p n := by
  obtain ⟨front, b, back, k, rest, rfl, free, pieces, tiled, canary, low', high', off⟩ := fits
  refine ⟨front, b, back, k, rest, rfl, free, pieces, ⟨tiled.tiles, tiled.listed.congr ?_⟩,
    ?_, by omega, by omega, off⟩
  · intro c member x first last
    refine store32_outside ?_
    have before := off (p - 4) (by omega) (by omega) c member
    have after := off (p - 1) (by omega) (by omega) c member
    omega
  · rw [load32_store32_outside (by omega)]
    exact canary

theorem Tiled.kmalloc_fits (tiled : Tiled mem l) (small : n ≤ 2 ^ 32 - 16) :
    ∃ p mem', Heap.kmalloc mem n = some (p, mem') ∧ (p = 0 ∨ Fits mem' l p n) := by
  have room := Sound.asked small
  obtain ⟨p, mem', run, ⟨null, -⟩ | ⟨front, b, back, k, rest, rfl, free, rfl, large, taken⟩⟩ :=
    tiled.kmalloc (n := n) (by omega)
  · exact ⟨p, mem', run, .inl null⟩
  · exact ⟨_, mem', run, .inr (taken.fits free (by omega))⟩

theorem Tiled.kmalloc_le (tiled : Tiled mem l) (run : Heap.kmalloc mem n = some (p, mem')) :
    p ≤ heapEnd := by
  obtain ⟨_, _, run', ⟨rfl, -⟩ | ⟨-, b, member, -, -, rfl, -⟩⟩ := tiled.kmalloc_cases n
  · cases run.symm.trans run'
    exact Nat.zero_le _
  · cases run.symm.trans run'
    exact le_of_add_right_le (tiled.window member).2

theorem rounded {k : Nat} (positive : 0 < k) (a : Nat) :
    a ≤ (a + k - 1) / k * k ∧ (a + k - 1) / k * k < a + k := by
  have low := lt_div_mul_add positive (a := a + k - 1)
  have high := div_mul_le_self (a + k - 1) k
  omega

theorem alignment_eq (a : Nat) : (if a < 4 then 4 else a) = max a 4 := by
  split
  · omega
  · omega

theorem pow_dvd_alignment (j : Nat) : 2 ^ j ∣ max (2 ^ j) 4 := by
  rcases le_total j 2 with small | large
  · rw [max_eq_right (Nat.pow_le_pow_right (by decide) small : 2 ^ j ≤ 2 ^ 2)]
    exact Nat.pow_dvd_pow 2 small
  · have same := max_eq_left (Nat.pow_le_pow_right (by decide) large : 2 ^ 2 ≤ 2 ^ j)
    exact ⟨1, same.trans (Nat.mul_one _).symm⟩

theorem alignment_le {j : Nat} (word : j < 32) : max (2 ^ j) 4 ≤ 2 ^ 31 :=
  max_le (Nat.pow_le_pow_right (by decide) (by omega)) (by decide)

theorem Tiled.kmallocAligned_eq (tiled : Tiled mem l) {j : Nat} (word : j < 32)
    (small : n + max (2 ^ j) 4 + 4 ≤ 2 ^ 32 - 16)
    (run : Heap.kmalloc mem (n + max (2 ^ j) 4 + 4) = some (raw, mem')) :
    ∃ p mem'', kmallocAligned mem n (2 ^ j) = some (p, mem'') ∧ (raw = 0 ∧ p = 0 ∧ mem'' = mem' ∨
      raw ≠ 0 ∧ 2 ^ j ∣ p ∧ raw + 4 ≤ p ∧ p < raw + 4 + max (2 ^ j) 4 ∧
        mem'' = store32 mem' (p - 4) raw) := by
  unfold kmallocAligned
  dsimp only
  rw [alignment_eq, mod_eq_of_lt (by omega), run, map_some]
  dsimp only
  split
  · rename_i null
    exact ⟨0, mem', rfl, .inl ⟨null, rfl, rfl⟩⟩
  rename_i nonzero
  have bound := alignment_le word
  have low : raw ≤ 0x03000000 := tiled.kmalloc_le run
  obtain ⟨low, high⟩ := rounded (k := max (2 ^ j) 4) (by omega) (raw + 4)
  rw [mod_eq_of_lt (by omega)]
  exact ⟨_, _, rfl,
    .inr ⟨nonzero, Nat.dvd_trans (pow_dvd_alignment j) (Nat.dvd_mul_left ..), low, high,
    rfl⟩⟩

/-- In a tiled heap the bytes asked for, the canary and, for `kmalloc_aligned`, the alignment are
right for exactly the sizes that can be rounded up without a wrap. -/
theorem kmalloc_size_law (tiled : Tiled mem l) (n : Nat) :
    (∃ p mem', kmalloc mem n = some (p, mem') ∧
      (p ≠ 0 → (Fits mem' l p n ↔ n ≤ 2 ^ 32 - 16))) ∧
    ∀ j < 32, ∃ p mem', kmallocAligned mem n (2 ^ j) = some (p, mem') ∧
      (p ≠ 0 → (2 ^ j ∣ p ∧ Fits mem' l p n ↔ n + max (2 ^ j) 4 + 4 ≤ 2 ^ 32 - 16)) := by
  have least : ∀ {mem' p}, Fits mem' l p n → n + 4 ≤ 2 ^ 24 := fun fits => fits.small tiled
  refine ⟨?_, fun j word => ?_⟩
  · by_cases small : n ≤ 2 ^ 32 - 16
    · obtain ⟨p, mem', run, outcome⟩ := tiled.kmalloc_fits small
      refine ⟨p, mem', run, fun nonzero => ?_⟩
      exact iff_of_true (outcome.resolve_left nonzero) small
    · obtain ⟨p, mem', run, -⟩ := tiled.kmalloc_cases n
      refine ⟨p, mem', run, fun _ => iff_of_false (fun fits => ?_) small⟩
      have bound := least fits
      omega
  · have bound := alignment_le word
    by_cases small : n + max (2 ^ j) 4 + 4 ≤ 2 ^ 32 - 16
    · obtain ⟨raw, mem', run, outcome⟩ := tiled.kmalloc_fits small
      obtain ⟨p, mem'', run', ⟨-, null, -⟩ | ⟨nonzero, aligned, low, high, rfl⟩⟩ :=
        tiled.kmallocAligned_eq word small run
      · exact ⟨p, mem'', run', fun nonzero => absurd null nonzero⟩
      · refine ⟨p, _, run', fun _ => iff_of_true ⟨aligned, ?_⟩ small⟩
        exact (outcome.resolve_left nonzero).move low (by omega) raw
    · obtain ⟨raw, mem', run, -⟩ := tiled.kmalloc_cases ((n + max (2 ^ j) 4 + 4) % 2 ^ 32)
      unfold kmallocAligned
      dsimp only
      rw [alignment_eq, run, map_some]
      refine ⟨_, _, rfl, fun _ => iff_of_false (fun fits => ?_) small⟩
      have bound' := least fits.2
      omega

theorem boot_tiled (mem : Memory) :
    Tiled (initHeap mem) [⟨heapStart, heapSize - headerSize, true⟩] :=
  (Sound.boot mem).tiled

/-- The whole window is one free block and 100 bytes are asked for. -/
theorem kmalloc_size_law_boot :
    ∃ p mem', kmalloc (initHeap fun _ => 0) 100 = some (p, mem') ∧ p = 0x02000010 ∧
      Fits mem' [⟨heapStart, heapSize - headerSize, true⟩] p 100 := by
  obtain ⟨p, mem', run, law⟩ := (kmalloc_size_law (boot_tiled fun _ => 0) 100).1
  have first : (kmalloc (initHeap fun _ => 0) 100).map Prod.fst = some 0x02000010 := by
    decide +kernel
  rw [run] at first
  cases first
  exact ⟨_, mem', run, rfl, (law (by decide)).mpr (by decide)⟩

/-- A size near `2 ^ 32` wraps: the caller gets a block of eight bytes. -/
theorem kmalloc_wraps : ¬ ∀ (mem : Memory) (l : List Block), Tiled mem l → ∀ n < 2 ^ 32,
    ∀ p mem', kmalloc mem n = some (p, mem') → p ≠ 0 → Fits mem' l p n := by
  intro law
  have first : (kmalloc (initHeap fun _ => 0) 0xFFFFFFFF).map Prod.fst = some 0x02000010 := by
    decide +kernel
  obtain ⟨⟨p, mem'⟩, run, here⟩ := map_eq_some_iff.mp first
  cases here
  have fits := law _ _ (boot_tiled fun _ => 0) _ (by decide) _ mem' run (by decide)
  exact absurd (fits.small (boot_tiled fun _ => 0)) (by decide)

/-- By induction on the blocks that the walk has not met. -/
theorem bestFit_eq {size fuel : Nat} {best : Option Block} (listed : Listed mem l 0)
    (inside : ∀ b ∈ l, b.addr ≠ 0 ∧ b.size < 4294967295) (enough : l.length < fuel)
    (met : ∀ b ∈ best, b.addr ≠ 0 ∧ sizeAt mem b.addr = b.size) :
    bestFit mem size fuel (firstOf l 0) (best.elim 0 Block.addr) =
      some (some (((l.filter fun b => b.free ∧ size ≤ b.size).foldl
        (argAux fun b c => b.size < c.size) best).elim 0 Block.addr)) := by
  induction l generalizing fuel best with
  | nil =>
    obtain _ | fuel := fuel
    · contradiction
    · rfl
  | cons b l ih =>
    obtain _ | fuel := fuel
    · contradiction
    obtain ⟨header, rest⟩ := listed
    obtain ⟨⟨nonzero, word⟩, others⟩ := forall_mem_cons.mp inside
    have later := fun best => @ih fuel best rest others (lt_of_succ_lt_succ enough)
    have here := later (some b) (by simp [header.size, nonzero])
    rw [firstOf, bestFit, if_neg nonzero, if_neg (not_not.mpr header.magic), header.next]
    simp only [header.free_iff, header.size]
    by_cases fits : b.free = true ∧ size ≤ b.size
    · cases best with
      | none => simpa [fits, word, argAux] using here
      | some c =>
        obtain ⟨nonzero', size'⟩ := met c rfl
        by_cases less : b.size < c.size
        · simpa [nonzero', size', less, fits, argAux] using here
        · simpa [nonzero', size', less, fits, argAux] using later (some c) met
    · simpa [fits, ← and_assoc] using later best met

/-- `kmalloc` takes the first of the smallest free blocks with room, and fails if there is none. -/
theorem kmalloc_best_fit {size : Nat} (tiled : Tiled mem l) (positive : 0 < n)
    (asked : size = alignUp8 (alignUp8 n + 4)) :
    kmalloc mem n = some (((l.filter fun b => b.free ∧ size ≤ b.size).argmin Block.size).elim
      (0, mem) fun b => (b.addr + headerSize, takeBlock mem b.addr size)) := by
  have inside (b) (member : b ∈ l) : b.addr ≠ 0 ∧ b.size < 4294967295 := by
    have bounds := tiled.window member
    omega
  have walk := @bestFit_eq mem l size rounds none tiled.listed inside tiled.few nofun
  rw [tiled.first, Option.elim_none, ← List.argmin] at walk
  rw [kmalloc, if_neg positive.ne']
  dsimp only
  rw [← asked, walk]
  cases chosen : (l.filter fun b => b.free ∧ size ≤ b.size).argmin Block.size with
  | none => rfl
  | some b => exact if_neg (inside b (mem_filter.mp (List.argmin_mem chosen)).1).1

instance (next : Nat) : Decidable (Header mem b next) :=
  decidable_of_iff (magicAt mem b.addr = heapMagic ∧ sizeAt mem b.addr = b.size ∧
      freeAt mem b.addr = b.free.toNat ∧ nextAt mem b.addr = next)
    ⟨fun ⟨magic, size, free, next⟩ => ⟨magic, size, free, next⟩,
      fun header => ⟨header.magic, header.size, header.free, header.next⟩⟩

/-- Two blocks are taken, and the first is given back. -/
def freedFirst : Option Memory := do
  let (p, mem) ← kmalloc (initHeap fun _ => 0) 200
  let (_, mem) ← kmalloc mem 8
  kfree mem p

/-- The freed block is smaller than the rest of the window. -/
theorem kmalloc_best_fit_boot : ∃ mem, freedFirst = some mem ∧
    kmalloc mem 100 = some (heapStart + headerSize, takeBlock mem heapStart 112) := by
  obtain ⟨mem, run, first, second, third⟩ := exists_of_any freedFirst (fun mem =>
    Header mem ⟨heapStart, 208, true⟩ (heapStart + 224) ∧
    Header mem ⟨heapStart + 224, 16, false⟩ (heapStart + 256) ∧
    Header mem ⟨heapStart + 256, heapSize - 272, true⟩ 0) (by decide +kernel)
  have tiled : Tiled mem [⟨heapStart, 208, true⟩, ⟨heapStart + 224, 16, false⟩,
      ⟨heapStart + 256, heapSize - 272, true⟩] :=
    ⟨⟨rfl, rfl, rfl, rfl⟩, first, second, third, trivial⟩
  exact ⟨mem, run, kmalloc_best_fit tiled (by decide) rfl⟩

/-! ## Histories with aligned pointers -/

/-- The heap with the live pointers: the pointer of the block and the bytes asked for. -/
structure Pointers where
  mem : Memory
  live : Nat → Option (Nat × Nat)

inductive Call
  | kmalloc (size : Nat)
  /-- Aligned to `2 ^ j`. -/
  | kmallocAligned (size j : Nat)
  | kfree (ptr : Nat)
  /-- The caller writes byte `i` of what it was given. -/
  | write (ptr i : Nat) (b : UInt8)

def Pointers.call (s : Pointers) : Call → Option Pointers
  | .kmalloc size => (kmalloc s.mem size).map fun (p, mem) =>
    if p = 0 then { s with mem } else ⟨mem, update s.live p (some (p, size))⟩
  | .kmallocAligned size j =>
    if j < 32 then (kmallocAligned s.mem size (2 ^ j)).map fun (p, mem) =>
      if p = 0 then { s with mem }
      else ⟨mem, update s.live p (some (load32 mem (p - 4), size))⟩
    else none
  | .kfree ptr => (kfree s.mem ptr).map fun mem => ⟨mem, update s.live ptr none⟩
  | .write ptr i b => match s.live ptr with
    | none => none
    | some (_, size) =>
      if i < size then some { s with mem := update s.mem (ptr + i) b } else none

def Pointers.boot (mem : Memory) : Pointers := ⟨initHeap mem, fun _ => none⟩

/-- What `kfree` takes for the header of a block stands below the pointer. -/
def Headed (mem : Memory) (p : Nat) : Prop :=
  heapAddrInRange (p - headerSize) = true ∧ magicAt mem (p - headerSize) = heapMagic

/-- The pointer of a block that is in use. -/
def Pointers.Raw (s : Pointers) (raw : Nat) : Prop := ∃ p n, s.live p = some (raw, n)

/-- `kfree` gives back the block of a live pointer and nothing else. -/
def Pointers.Recognised (s : Pointers) (p : Nat) : Prop :=
  match s.live p with
  | some (raw, _) => ∃ mem l', kfree s.mem p = some mem ∧ Tiled mem l' ∧ ∀ l, Tiled s.mem l →
      ∀ c, c.free = false → (c ∈ l' ↔ c ∈ l ∧ raw ≠ c.addr + headerSize)
  | none => kfree s.mem p = some s.mem

/-- An aligned pointer has no magic where a header would be; any other address has a magic there
and is not the pointer of a block, or the word below it is not. -/
def Pointers.Told (s : Pointers) (p : Nat) : Prop :=
  match s.live p with
  | some (raw, _) => raw = p ∨ ¬ Headed s.mem p
  | none => p = 0 ∨ Headed s.mem p ∧ ¬ s.Raw p ∨
      ¬ Headed s.mem p ∧ ¬ s.Raw (load32 s.mem ((p + 2 ^ 32 - 4) % 2 ^ 32))

def Pointers.Admits (s : Pointers) : Call → Prop
  | .kmalloc size => size ≤ 2 ^ 32 - 16
  | .kmallocAligned size j => size + max (2 ^ j) 4 + 4 ≤ 2 ^ 32 - 16
  | .kfree ptr => s.Told ptr
  | .write .. => True

/-- The memory determines the list. -/
theorem Tiled.unique {l' : List Block} (tiled : Tiled mem l) (tiled' : Tiled mem l') : l = l' := by
  have start := tiled.first.trans tiled'.first.symm
  have above : ∀ c ∈ l, c.addr ≠ 0 := fun c => tiled.nonzero
  have above' : ∀ c ∈ l', c.addr ≠ 0 := fun c => tiled'.nonzero
  have listed := tiled.listed
  have listed' := tiled'.listed
  clear tiled tiled'
  induction l generalizing l' with
  | nil =>
    cases l' with
    | nil => rfl
    | cons c l' => exact absurd start.symm (above' c mem_cons_self)
  | cons b l ih =>
    cases l' with
    | nil => exact absurd start (above b mem_cons_self)
    | cons c l' =>
      obtain ⟨⟨-, size, free, next⟩, rest⟩ := listed
      obtain ⟨header', rest'⟩ := listed'
      have addr : b.addr = c.addr := start
      rw [addr] at size free next
      have sizes := size.symm.trans header'.size
      have flags : b.free = c.free := by
        rw [Bool.eq_iff_iff, ← header'.free_iff, free]
        simp
      have same : b = c := by
        cases b
        cases c
        simp_all
      rw [same,
        ih (next.symm.trans header'.next) (fun d member => above d (mem_cons_of_mem _ member))
        (fun d member => above' d (mem_cons_of_mem _ member)) rest rest']

/-- The pointers against the blocks: one pointer to a block, and below an aligned pointer that
of its block. -/
structure Kept (s : Pointers) (blocks : Nat → Option Nat) (l : List Block) : Prop where
  sound : Sound ⟨s.mem, blocks⟩ l
  owner : ∀ p raw n, s.live p = some (raw, n) → ∃ m, blocks raw = some m ∧ p + n ≤ raw + m ∧
    (p = raw ∨ raw + 4 ≤ p ∧ load32 s.mem (p - 4) = raw)
  single : ∀ p q raw n m, s.live p = some (raw, n) → s.live q = some (raw, m) → p = q
  owned : ∀ raw m, blocks raw = some m → s.Raw raw

namespace Kept

variable {s : Pointers} {blocks : Nat → Option Nat}

theorem apart (kept : Kept s blocks l) {other : Nat} (owner : s.live p = some (raw, n))
    (block : blocks other = some m) (different : raw ≠ other) :
    p + n + 20 ≤ other ∨ other + m + 16 ≤ p - 4 := by
  obtain ⟨m', block', fits, place⟩ := kept.owner p raw n owner
  have between := kept.sound.disjoint different block' block
  omega

theorem below (fits : p + n ≤ raw + m) (same : ∀ i < m, mem (raw + i) = s.mem (raw + i))
    (low : raw + 4 ≤ p) :
    load32 mem (p - 4) = load32 s.mem (p - 4) := by
  refine load32_congr fun i small => ?_
  have there := same (p - 4 + i - raw) (by omega)
  rwa [show raw + (p - 4 + i - raw) = p - 4 + i by omega] at there

section

variable (kept : Kept s blocks l)

include kept

theorem add (fresh : blocks raw = none)
    (same : Sound.SameBytes ⟨s.mem, blocks⟩ mem)
    (sound : Sound ⟨mem, update blocks raw (some m)⟩ l') (fits : p + n ≤ raw + m)
    (place : p = raw ∨ raw + 4 ≤ p ∧ load32 mem (p - 4) = raw) :
    Kept ⟨mem, update s.live p (some (raw, n))⟩ (update blocks raw (some m)) l' := by
  have older : ∀ {r k}, blocks r = some k → r ≠ raw := by
    rintro r k old rfl
    cases fresh.symm.trans old
  have new : ∀ q r k, s.live q = some (r, k) → q ≠ p := by
    rintro q r k old rfl
    obtain ⟨m', block, fits', place'⟩ := kept.owner q r k old
    have between := sound.disjoint (p := raw) (q := r) (older block).symm
      (update_self ..) ((update_of_ne (older block) ..).trans block)
    omega
  refine ⟨sound, ?_, ?_, ?_⟩
  · intro q r k owner
    dsimp only at owner
    rw [update_apply] at owner
    split at owner
    · rename_i here
      cases owner
      exact ⟨m, update_self .., here ▸ fits, here ▸ place⟩
    · obtain ⟨m', block, fits', place'⟩ := kept.owner q r k owner
      refine ⟨m', (update_of_ne (older block) ..).trans block, fits', ?_⟩
      refine place'.imp_right fun ⟨low, word⟩ => ⟨low, ?_⟩
      exact (below fits' (same r m' block) low).trans word
  · intro q q' r k k' owner owner'
    dsimp only at owner owner'
    rw [update_apply] at owner owner'
    split at owner
    · cases owner
      split at owner'
      · simp [*]
      · obtain ⟨_, block, -⟩ := kept.owner q' raw k' owner'
        exact absurd rfl (older block)
    · split at owner'
      · cases owner'
        obtain ⟨_, block, -⟩ := kept.owner q raw k owner
        exact absurd rfl (older block)
      · exact kept.single q q' r k k' owner owner'
  · intro r k block
    rw [update_apply] at block
    split at block
    · rename_i here
      exact ⟨p, n, (update_self ..).trans (here ▸ rfl)⟩
    · obtain ⟨q, k', owner⟩ := kept.owned r k block
      exact ⟨q, k', (update_of_ne (new q r k' owner) ..).trans owner⟩

theorem remove (owner : s.live p = some (raw, n))
    (same : Sound.SameBytes ⟨s.mem, blocks⟩ mem)
    (sound : Sound ⟨mem, update blocks raw none⟩ l') :
    Kept ⟨mem, update s.live p none⟩ (update blocks raw none) l' := by
  have old : ∀ {q r k}, update s.live p none q = some (r, k) →
      s.live q = some (r, k) ∧ r ≠ raw := by
    intro q r k owner'
    rw [update_apply] at owner'
    split at owner'
    · cases owner'
    · rename_i elsewhere
      exact ⟨owner', fun here => elsewhere (kept.single q p raw k n (here ▸ owner') owner)⟩
  refine ⟨sound, ?_, ?_, ?_⟩
  · intro q r k owner'
    obtain ⟨owner', other⟩ := old owner'
    obtain ⟨m, block, fits, place⟩ := kept.owner q r k owner'
    refine ⟨m, (update_of_ne other ..).trans block, fits, ?_⟩
    refine place.imp_right fun ⟨low, word⟩ => ⟨low, ?_⟩
    exact (below fits (same r m block) low).trans word
  · intro q q' r k k' owner' owner''
    exact kept.single q q' r k k' (old owner').1 (old owner'').1
  · intro r k block
    rw [update_apply] at block
    split at block
    · cases block
    rename_i elsewhere
    obtain ⟨q, k', owner'⟩ := kept.owned r k block
    refine ⟨q, k', (update_of_ne ?_ ..).trans owner'⟩
    rintro rfl
    cases owner.symm.trans owner'
    exact elsewhere rfl

theorem write {i : Nat} (owner : s.live p = some (raw, n))
    (inside : i < n) (v : UInt8) :
    Kept { s with mem := update s.mem (p + i) v } blocks l := by
  obtain ⟨m, block, fits, place⟩ := kept.owner p raw n owner
  refine ⟨kept.sound.write block fun x outside => update_of_ne (by omega) .., ?_,
    kept.single, kept.owned⟩
  intro q r k owner'
  obtain ⟨m', block', fits', place'⟩ := kept.owner q r k owner'
  refine ⟨m', block', fits', place'.imp_right fun ⟨low, word⟩ => ⟨low, ?_⟩⟩
  refine Eq.trans (load32_congr fun j small => update_of_ne ?_ ..) word
  by_cases mine : r = raw
  · have same := kept.single q p raw k n (mine ▸ owner') owner
    omega
  · have between := kept.apart owner block' (Ne.symm mine)
    omega

/-! ### What `kfree` does -/

theorem block (block : s.Raw raw) : ∃ m, blocks raw = some m := by
  obtain ⟨p, n, owner⟩ := block
  obtain ⟨m, there, -⟩ := kept.owner p raw n owner
  exact ⟨m, there⟩

theorem headed (block : blocks raw = some m) :
    Headed s.mem raw ∧ heapAddrInRange raw = true := by
  obtain ⟨b, member, -, rfl, fits⟩ := kept.sound.live raw m block
  have window := kept.sound.tiled.window member
  have low : heapStart ≤ b.addr + 16 := by unfold heapStart; omega
  have high : b.addr + 16 < heapEnd := by unfold heapEnd heapStart heapSize; omega
  obtain ⟨front, back, rfl⟩ := append_of_mem member
  refine ⟨⟨?_, ?_⟩, by simp [heapAddrInRange, low, high]⟩
  · exact kept.sound.tiled.inRange member
  · exact kept.sound.tiled.header.magic

theorem ignored (other : ¬ s.Raw p) :
    kfreeImpl s.mem p = some s.mem := by
  refine kept.sound.tiled.kfreeImpl_other ?_
  rintro b member used rfl
  obtain ⟨n, block⟩ := kept.sound.owned b member used
  exact other (kept.owned _ n block)

/-- The block list can be read off the memory, so giving back a block changes the memory. -/
theorem freed (block : s.Raw raw) :
    kfreeImpl s.mem raw ≠ some s.mem := by
  obtain ⟨m, block⟩ := kept.block block
  obtain ⟨mem, run, -, l', sound, used⟩ := kept.sound.kfreeImpl block
  obtain ⟨b, member, taken, here, -⟩ := kept.sound.live raw m block
  rintro same
  cases run.symm.trans same
  rw [sound.tiled.unique kept.sound.tiled] at used
  exact ((used b taken).mp member).2 here

end

theorem kfree_headed (positive : p ≠ 0) (head : Headed mem p) :
    kfree mem p = kfreeImpl mem p :=
  (if_neg positive).trans (if_pos head)

theorem kfree_unheaded (positive : p ≠ 0) (unheaded : ¬ Headed mem p) :
    kfree mem p = let raw := load32 mem ((p + 2 ^ 32 - 4) % 2 ^ 32)
      if heapAddrInRange raw ∧ magicAt mem (raw - headerSize) = heapMagic then kfreeImpl mem raw
      else some mem :=
  (if_neg positive).trans (if_neg unheaded)

theorem kfree_told (kept : Kept s blocks l) (owner : s.live p = some (raw, n))
    (told : raw = p ∨ ¬ Headed s.mem p) : kfree s.mem p = kfreeImpl s.mem raw := by
  obtain ⟨m, block, fits, place⟩ := kept.owner p raw n owner
  obtain ⟨head, inRange⟩ := kept.headed block
  have low : heapStart ≤ raw := of_decide_eq_true (Bool.and_eq_true _ _ |>.mp inRange).1
  unfold heapStart at low
  rcases told with rfl | unheaded
  · exact kfree_headed (by omega) head
  have small : p < 2 ^ 32 := by
    obtain ⟨b, member, -, rfl, room⟩ := kept.sound.live raw m block
    have window := kept.sound.tiled.window member
    omega
  have word : load32 s.mem ((p + 2 ^ 32 - 4) % 2 ^ 32) = raw := by
    rw [show (p + 2 ^ 32 - 4) % 2 ^ 32 = p - 4 by omega]
    exact (place.resolve_left fun same => unheaded (same ▸ head)).2
  rw [kfree_unheaded (by omega) unheaded, word]
  exact if_pos ⟨inRange, head.2⟩

theorem recognised_iff (kept : Kept s blocks l) (p : Nat) : s.Recognised p ↔ s.Told p := by
  unfold Pointers.Recognised Pointers.Told
  split
  · rename_i raw n owner
    obtain ⟨m, block, fits, place⟩ := kept.owner p raw n owner
    by_cases told : raw = p ∨ ¬ Headed s.mem p
    · refine iff_of_true ?_ told
      obtain ⟨mem, run, -, l', sound, used⟩ := kept.sound.kfreeImpl block
      refine ⟨mem, l', (kept.kfree_told owner told).trans run, sound.tiled, ?_⟩
      intro l'' tiled
      rw [← kept.sound.tiled.unique tiled]
      exact used
    refine iff_of_false ?_ told
    rintro ⟨mem, l', run, tiled, used⟩
    obtain ⟨elsewhere, head⟩ := not_or.mp told
    rw [not_not] at head
    -- the pointer is inside its block, so it is that of no other
    have inside : ¬ s.Raw p := by
      intro block'
      obtain ⟨m', block'⟩ := kept.block block'
      have between := kept.apart owner block' elsewhere
      omega
    have positive : p ≠ 0 := by
      rintro rfl
      exact absurd head.1 (by decide)
    rw [kfree_headed positive head, kept.ignored inside] at run
    cases run
    obtain ⟨b, member, taken, here, -⟩ := kept.sound.live raw m block
    rw [tiled.unique kept.sound.tiled] at used
    exact ((used l kept.sound.tiled b taken).mp member).2 here
  · by_cases null : p = 0
    · exact iff_of_true (by rw [kfree, if_pos null]) (.inl null)
    rw [or_iff_right null]
    by_cases head : Headed s.mem p
    · rw [kfree_headed null head]
      by_cases block : s.Raw p
      · simp [head, block, kept.freed block]
      · simp [head, block, kept.ignored block]
    · rw [kfree_unheaded null head]
      dsimp only
      generalize load32 s.mem ((p + 2 ^ 32 - 4) % 2 ^ 32) = raw
      by_cases block : s.Raw raw
      · obtain ⟨m, there⟩ := kept.block block
        obtain ⟨head', inRange⟩ := kept.headed there
        rw [if_pos ⟨inRange, head'.2⟩]
        simp [head, block, kept.freed block]
      · simp [head, block, kept.ignored block]

/-! ### Every history -/

theorem kmalloc (kept : Kept s blocks l) (small : n ≤ 2 ^ 32 - 16) :
    ∃ raw mem, Heap.kmalloc s.mem n = some (raw, mem) ∧ (raw = 0 ∧ mem = s.mem ∨
      raw ≠ 0 ∧ blocks raw = none ∧ Sound.SameBytes ⟨s.mem, blocks⟩ mem ∧
        ∃ l', Sound ⟨mem, update blocks raw (some n)⟩ l') := by
  rcases Nat.eq_zero_or_pos n with rfl | positive
  · exact ⟨0, s.mem, rfl, .inl ⟨rfl, rfl⟩⟩
  obtain ⟨raw, mem, run, same, null | ⟨nonzero, fresh, added⟩⟩ := kept.sound.kmalloc positive small
  · exact ⟨raw, mem, run, .inl null⟩
  · exact ⟨raw, mem, run, .inr ⟨nonzero, fresh, same, added⟩⟩

theorem call (kept : Kept s blocks l) {a : Call} {t : Pointers} (admits : s.Admits a)
    (run : s.call a = some t) : ∃ blocks l, Kept t blocks l := by
  cases a with
  | kmalloc size =>
    obtain ⟨raw, mem, result, ⟨rfl, rfl⟩ | ⟨nonzero, fresh, same, l', sound⟩⟩ :=
      kept.kmalloc (n := size) admits
    · rw [Pointers.call, result] at run
      cases run
      exact ⟨blocks, l, kept⟩
    · rw [Pointers.call, result, map_some] at run
      dsimp only at run
      rw [if_neg nonzero] at run
      cases run
      exact ⟨_, l', kept.add fresh same sound (le_refl _) (.inl rfl)⟩
  | kmallocAligned size j =>
    rw [Pointers.call] at run
    split at run
    · rename_i word
      have small : size + max (2 ^ j) 4 + 4 ≤ 2 ^ 32 - 16 := admits
      obtain ⟨raw, mem, result, outcome⟩ := kept.kmalloc small
      obtain ⟨p, mem', result', ⟨rfl, rfl, rfl⟩ | ⟨nonzero, -, low, below, rfl⟩⟩ :=
        kept.sound.tiled.kmallocAligned_eq word small result
      · obtain ⟨-, rfl⟩ := outcome.resolve_right (absurd rfl ·.1)
        rw [result'] at run
        cases run
        exact ⟨blocks, l, kept⟩
      obtain ⟨-, fresh, same, l', sound⟩ := outcome.resolve_left (absurd ·.1 nonzero)
      have back : load32 (store32 mem (p - 4) raw) (p - 4) = raw :=
        load32_store32 (lt_of_le_of_lt (kept.sound.tiled.kmalloc_le result) (by decide))
      rw [result', map_some] at run
      dsimp only at run
      rw [if_neg (by omega), back] at run
      cases run
      have owner := update_self raw (some (size + max (2 ^ j) 4 + 4)) blocks
      refine ⟨_, l', kept.add fresh ?_ (sound.write owner fun x outside =>
        store32_outside (by omega)) (by omega) (.inr ⟨low, back⟩)⟩
      intro r m block i inside
      have other : r ≠ raw := by
        rintro rfl
        cases fresh.symm.trans block
      have between := sound.disjoint other.symm owner
        ((update_of_ne other ..).trans block)
      exact (store32_outside (by omega)).trans (same r m block i inside)
    · cases run
  | kfree p =>
    obtain ⟨mem, result, rfl⟩ := map_eq_some_iff.mp run
    cases owner : s.live p with
    | none =>
      have untouched := (kept.recognised_iff p).mpr admits
      rw [Pointers.Recognised, owner] at untouched
      cases result.symm.trans untouched
      rw [← owner, update_eq_self]
      exact ⟨blocks, l, kept⟩
    | some entry =>
      obtain ⟨raw, n⟩ := entry
      have told : s.Told p := admits
      rw [Pointers.Told, owner] at told
      obtain ⟨m, block, -⟩ := kept.owner p raw n owner
      obtain ⟨mem', freed, same, l', sound, -⟩ := kept.sound.kfreeImpl block
      cases (result.symm.trans (kept.kfree_told owner told)).trans freed
      exact ⟨_, l', kept.remove owner same sound⟩
  | write p i v =>
    rw [Pointers.call] at run
    split at run
    · cases run
    rename_i raw n owner
    split at run
    · rename_i inside
      cases run
      exact ⟨blocks, l, kept.write owner inside v⟩
    · cases run

end Kept

/-- In every history whose sizes do not wrap and whose calls of `kfree` are told apart, `kfree`
of an address does the right thing exactly when it is told apart. -/
theorem kfree_recognises (mem : Memory) (s : Pointers)
    (reached : Reach (· = Pointers.boot mem)
      (restrict Pointers.Admits fun s a t => s.call a = some t) s) (p : Nat) :
    s.Recognised p ↔ s.Told p := by
  obtain ⟨blocks, l, kept⟩ : ∃ blocks l, Kept s blocks l := by
    refine Reach.invariant (fun s => ∃ blocks l, Kept s blocks l) ?_ ?_ reached
    · rintro _ rfl
      exact ⟨_, _, ⟨.boot mem, nofun, nofun, nofun⟩⟩
    · rintro before a after ⟨blocks, l, kept⟩ ⟨admits, run⟩
      exact kept.call admits run
  exact kept.recognised_iff p

/-- One block, which its pointer gives back. -/
theorem kfree_recognises_plain :
    ∃ s, (Pointers.boot fun _ => 0).call (.kmalloc 24) = some s ∧
      s.live 0x02000010 = some (0x02000010, 24) ∧ s.Recognised 0x02000010 := by
  have small : (Pointers.boot fun _ => 0).Admits (.kmalloc 24) :=
    show 24 ≤ 2 ^ 32 - 16 by decide
  exact ⟨_, rfl, rfl, (kfree_recognises _ _ (.next (.start rfl) ⟨small, rfl⟩) _).mpr (.inl rfl)⟩

/-- An aligned block is given back and its bytes are taken again; a second `kfree` of the aligned
pointer gives back the block of the new owner. -/
theorem kfree_twice : ¬ ∀ (s : Pointers), Reach (· = Pointers.boot fun _ => 0)
    (fun s a t => s.call a = some t) s → ∀ p, s.live p = none → kfree s.mem p = some s.mem := by
  intro law
  obtain ⟨s, reached, dead, used, freed⟩ := Reach.exists_of_run (· = .boot fun _ => 0)
    Pointers.call (fun _ _ _ move => move) rfl [.kmallocAligned 8 4, .kfree 0x02000020, .kmalloc 24]
    (fun s => s.live 0x02000020 = none ∧ freeAt s.mem heapStart = 0 ∧
      (kfree s.mem 0x02000020).map (freeAt · heapStart) = some 1) (by decide +kernel)
  rw [law s reached _ dead, map_some, used] at freed
  cases freed

end CactKernel.Heap
