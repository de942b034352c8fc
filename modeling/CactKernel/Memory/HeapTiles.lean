import CactKernel.Memory.Heap

/-! # The heap is tiled by its blocks

`Tiled mem l` ties the bytes of the heap to a list of blocks: the headers of the
blocks are in memory and linked in order, and the blocks tile the window. `Sound s l`
adds what the callers rely on: no two neighbours are free, every used block has its
canary and an owner. Each call and each write of an owner keeps it, with another
list. -/

set_option autoImplicit false

namespace CactKernel.Heap

open Lib Lib.Program List Option Function Nat Or Reach

/-! ## Headers in memory -/

/-- The header of a block, and where it points. -/
structure Header (mem : Memory) (b : Block) (next : Nat) : Prop where
  magic : magicAt mem b.addr = heapMagic
  size : sizeAt mem b.addr = b.size
  free : freeAt mem b.addr = b.free.toNat
  next : nextAt mem b.addr = next

/-- The address of the first block, or of what follows. -/
def firstOf : List Block → Nat → Nat
  | [], last => last
  | b :: _, _ => b.addr

def Listed (mem : Memory) : List Block → Nat → Prop
  | [], _ => True
  | b :: l, last => Header mem b (firstOf l last) ∧ Listed mem l last

variable {mem mem' : Memory} {b c : Block} {l m : List Block} {last next : Nat}

variable {a next best fuel e : Nat}

theorem load32_congr (same : ∀ i < 4, mem' (a + i) = mem (a + i)) :
    load32 mem' a = load32 mem a := by
  have first := same 0 (by decide)
  rw [Nat.add_zero] at first
  unfold load32
  rw [first, same 1 (by decide), same 2 (by decide), same 3 (by decide)]

theorem Header.congr (header : Header mem b next)
    (same : ∀ x, b.addr ≤ x → x < b.addr + 16 → mem' x = mem x) : Header mem' b next := by
  have word : ∀ k ≤ 12, load32 mem' (b.addr + k) = load32 mem (b.addr + k) := fun k small =>
    load32_congr fun i less => same _ (by omega) (by omega)
  exact ⟨(word 0 (by decide)).trans header.magic, (word 4 (by decide)).trans header.size,
    (word 8 (by decide)).trans header.free, (word 12 (by decide)).trans header.next⟩

theorem Listed.congr (listed : Listed mem l last)
    (same : ∀ b ∈ l, ∀ x, b.addr ≤ x → x < b.addr + 16 → mem' x = mem x) : Listed mem' l last := by
  induction l with
  | nil => trivial
  | cons b l ih =>
    refine ⟨listed.1.congr (same b mem_cons_self), ih listed.2 ?_⟩
    exact fun c member => same c (mem_cons_of_mem _ member)

theorem firstOf_append : firstOf (l ++ m) last = firstOf l (firstOf m last) := by
  cases l with
  | nil | cons b l => rfl

theorem listed_append :
    Listed mem (l ++ m) last ↔ Listed mem l (firstOf m last) ∧ Listed mem m last := by
  induction l with
  | nil => simp [Listed]
  | cons b l ih => simp [Listed, ih, firstOf_append, and_assoc]

variable {size x : Nat}

theorem writeHeader_outside {free : Nat} (outside : x < a ∨ a + 16 ≤ x) :
    writeHeader mem a size free next x = mem x := by
  simp (disch := omega) only [writeHeader, store32_outside]

theorem toNat_lt (free : Bool) : free.toNat < 2 ^ 32 := by
  cases free with
  | false | true => decide

theorem header_writeHeader (b : Block) (size : b.size < 2 ^ 32) (word : next < 2 ^ 32) :
    Header (writeHeader mem b.addr b.size b.free.toNat next) b next := by
  have bit := toNat_lt b.free
  have magic : heapMagic < 2 ^ 32 := by decide
  constructor <;>
    simp (disch := omega) only [writeHeader, magicAt, sizeAt, freeAt, nextAt,
      load32_store32_outside, load32_store32]

theorem Header.free_iff (header : Header mem b next) : freeAt mem b.addr ≠ 0 ↔ b.free = true := by
  rw [header.free]
  cases b.free with
  | false | true => decide

theorem Header.mark (header : Header mem b next) (free : Bool) :
    Header (store32 mem (b.addr + 8) free.toNat) { b with free } next := by
  obtain ⟨magic, size, -, link⟩ := header
  simp only [magicAt, sizeAt, nextAt] at magic size link
  have bit := toNat_lt free
  constructor <;>
    simp (disch := omega) only [magicAt, sizeAt, freeAt, nextAt, load32_store32_outside,
      load32_store32, magic, size, link]

/-! ## The list of blocks -/

structure Tiled (mem : Memory) (l : List Block) : Prop where
  tiles : Tiles 16 heapStart l heapEnd
  listed : Listed mem l 0

namespace Tiled

theorem window (tiled : Tiled mem l) (member : b ∈ l) :
    0x02000000 ≤ b.addr ∧ b.addr + 16 + b.size ≤ 0x03000000 :=
  tiled.tiles.bounds member

theorem few (tiled : Tiled mem l) : l.length < rounds := by
  have whole := tiled.tiles.length_le
  unfold heapEnd heapStart heapSize at whole
  have enough : rounds = 1048577 := by decide
  omega

theorem first (tiled : Tiled mem l) : firstOf l 0 = heapStart := by
  have tiles := tiled.tiles
  cases l with
  | nil =>
    have empty : heapStart = heapEnd := tiles
    exact absurd empty (by decide)
  | cons b l => exact tiles.1

theorem apart (tiled : Tiled mem l) (member : b ∈ l) (member' : c ∈ l)
    (low : b.addr + 16 ≤ x) (high : x < b.addr + 16 + b.size) :
    (x < c.addr ∨ c.addr + 16 ≤ x) ∧ (c ≠ b → x < c.addr ∨ c.addr + 16 + c.size ≤ x) := by
  rcases tiled.tiles.apart member member' with rfl | before | after
  · exact ⟨.inr low, fun other => absurd rfl other⟩
  · exact ⟨by omega, fun _ => by omega⟩
  · exact ⟨by omega, fun _ => by omega⟩

theorem inRange (tiled : Tiled mem l) (member : b ∈ l) : heapAddrInRange b.addr = true := by
  have bounds := tiled.window member
  have low : heapStart ≤ b.addr := bounds.1
  have high : b.addr < heapEnd := lt_of_lt_of_le (by omega) bounds.2
  simp [heapAddrInRange, low, high]

theorem nonzero (tiled : Tiled mem l) (member : b ∈ l) : b.addr ≠ 0 := by
  have bounds := tiled.window member
  omega

theorem header (tiled : Tiled mem (l ++ b :: m)) : Header mem b (firstOf m 0) :=
  (listed_append.mp tiled.listed).2.1

theorem here : b ∈ l ++ b :: m := mem_append_right _ mem_cons_self

theorem firstOf_lt (low : ∀ b ∈ l, b.addr < 2 ^ 32) : firstOf l 0 < 2 ^ 32 := by
  cases l with
  | nil => decide
  | cons b l => exact low b mem_cons_self

theorem replace {r : List Block} (tiled : Tiled mem (l ++ b :: m))
    (tiles : Tiles 16 heapStart (l ++ r ++ m) heapEnd) (listed : Listed mem' r (firstOf m 0))
    (first : firstOf r 0 = b.addr) (some : r ≠ [])
    (same : ∀ x, x < b.addr ∨ b.addr + 16 + b.size ≤ x → mem' x = mem x) :
    Tiled mem' (l ++ r ++ m) := by
  obtain ⟨mid, before, start, after⟩ := Tiles.append.mp tiled.tiles
  obtain ⟨front, -, back⟩ := listed_append.mp tiled.listed
  refine ⟨tiles, listed_append.mpr ⟨listed_append.mpr ⟨?_, listed⟩, back.congr ?_⟩⟩
  · have target : firstOf r (firstOf m 0) = firstOf (b :: m) 0 := by
      cases r with
      | nil => exact absurd rfl some
      | cons c r => exact first
    rw [target]
    refine front.congr fun c member x low high => same x ?_
    have bounds := before.bounds member
    omega
  · intro c member x low high
    have bounds := after.bounds member
    exact same x (by omega)

end Tiled

/-! ## Allocation -/

/-- The block that the walk has chosen so far. -/
def Chosen (l : List Block) (size best : Nat) : Prop :=
  best = 0 ∨ ∃ b ∈ l, b.addr = best ∧ b.free = true ∧ size ≤ b.size

theorem Chosen.ite {better : Prop} [Decidable better] (chosen : Chosen l size best)
    (member : b ∈ l) (fits : better → b.free = true ∧ size ≤ b.size) :
    Chosen l size (if better then b.addr else best) := by
  split
  · rename_i holds
    exact inr ⟨b, member, rfl, fits holds⟩
  · exact chosen

theorem bestFit_chosen {whole : List Block} (size : Nat)
    (inside : ∀ b ∈ l, b ∈ whole ∧ b.addr ≠ 0) (listed : Listed mem l 0)
    (enough : l.length < fuel) (chosen : Chosen whole size best) :
    ∃ r, bestFit mem size fuel (firstOf l 0) best = some (some r) ∧ Chosen whole size r := by
  induction l generalizing fuel best with
  | nil =>
    obtain _ | fuel := fuel
    · omega
    exact ⟨best, rfl, chosen⟩
  | cons b l ih =>
    rw [length_cons] at enough
    obtain _ | fuel := fuel
    · omega
    obtain ⟨member, nonzero⟩ := inside b mem_cons_self
    obtain ⟨header, rest⟩ := listed
    rw [firstOf, bestFit, if_neg nonzero, if_neg (not_not.mpr header.magic), header.next]
    apply ih
    · exact fun c later => inside c (mem_cons_of_mem _ later)
    · exact rest
    · omega
    · apply chosen.ite member
      intro better
      rw [header.free_iff, header.size] at better
      exact ⟨better.1, better.2.1⟩

/-- What is left of a free block: one of `k` bytes and perhaps the rest. -/
def Pieces (b : Block) (k : Nat) (rest : List Block) : Prop :=
  rest = [] ∧ k = b.size ∨ rest = [⟨b.addr + 16 + k, b.size - k - 16, true⟩] ∧ k + 16 ≤ b.size

variable {k : Nat} {rest : List Block}

theorem Pieces.le (pieces : Pieces b k rest) : k ≤ b.size := by
  rcases pieces with ⟨-, all⟩ | ⟨-, part⟩
  · omega
  · omega

theorem Pieces.tiles (pieces : Pieces b k rest) (tiles : Tiles 16 a (l ++ b :: m) e) :
    Tiles 16 a (l ++ ⟨b.addr, k, false⟩ :: rest ++ m) e := by
  rcases pieces with ⟨rfl, rfl⟩ | ⟨rfl, fits⟩
  · simpa using tiles.replace (c := ⟨b.addr, b.size, false⟩) rfl rfl
  · simpa using tiles.split fits

theorem Pieces.spread (pieces : Pieces b k rest)
    (spread : Spread (l ++ b :: m)) (free : b.free = true) :
    Spread (l ++ ⟨b.addr, k, false⟩ :: rest ++ m) := by
  rcases pieces with ⟨rfl, -⟩ | ⟨rfl, -⟩
  · simpa using spread.take (c := ⟨b.addr, k, false⟩) rfl
  · simpa using spread.split (c := ⟨b.addr, k, false⟩) free rfl

theorem ne_of_free (free : b.free = true) (used : c.free = false) : c ≠ b := by
  rintro rfl
  cases free.symm.trans used

theorem Pieces.used (pieces : Pieces b k rest) (free : b.free = true)
    (used : c.free = false) :
    c ∈ l ++ ⟨b.addr, k, false⟩ :: rest ++ m ↔ c ∈ l ++ b :: m ∨ c = ⟨b.addr, k, false⟩ := by
  have other := ne_of_free free used
  have outside : c ∉ rest := by
    intro member
    rcases pieces with ⟨rfl, -⟩ | ⟨rfl, -⟩
    · cases member
    · rw [mem_singleton.mp member] at used
      cases used
  simp only [mem_append, mem_cons, other, outside, false_or, or_false]
  exact ⟨fun h => h.elim (·.elim (.inl ∘ .inl) .inr) (.inl ∘ .inr),
    fun h => h.elim (·.elim (.inl ∘ .inl) .inr) (.inl ∘ .inr)⟩

theorem splitBlock_outside (header : Header mem b next)
    (outside : x < b.addr ∨ b.addr + 16 + b.size ≤ x) : splitBlock mem b.addr size x = mem x := by
  unfold splitBlock headerSize
  rw [header.size]
  split
  · simp (disch := omega) only [store32_outside, writeHeader_outside]
  · rfl

theorem splitBlock_listed (header : Header mem b last) (free : b.free = true)
    (fits : size ≤ b.size) (low : b.addr + 16 + b.size ≤ 0x03000000) (word : last < 2 ^ 32) :
    ∃ k rest, size ≤ k ∧ Pieces b k rest ∧
      Listed (splitBlock mem b.addr size) (⟨b.addr, k, true⟩ :: rest) last := by
  unfold splitBlock headerSize
  rw [header.size, header.next]
  split
  · have second : Header (writeHeader mem (b.addr + 16 + size) (b.size - size - 16) 1 last)
        ⟨b.addr + 16 + size, b.size - size - 16, true⟩ last := by
      refine header_writeHeader ⟨_, _, true⟩ ?_ word
      dsimp only
      omega
    have kept : Header (writeHeader mem (b.addr + 16 + size) (b.size - size - 16) 1 last) b last :=
      header.congr fun x _ _ => writeHeader_outside (by omega)
    obtain ⟨magic, -, flag, -⟩ := kept
    simp only [magicAt, freeAt, free] at magic flag
    refine ⟨size, _, le_refl _, inr ⟨rfl, by omega⟩, ?_, second.congr ?_, trivial⟩
    · constructor <;>
        simp (disch := omega) only [magicAt, sizeAt, freeAt, nextAt, load32_store32_outside,
          load32_store32, magic, flag, firstOf]
    · intro x low high
      dsimp only at low high
      simp (disch := omega) only [store32_outside]
  · refine ⟨b.size, [], fits, inl ⟨rfl, rfl⟩, ?_, trivial⟩
    rw [← free]
    exact header

/-- What an allocation makes of the free block `b`. -/
structure Taken (mem mem' : Memory) (l : List Block) (b : Block) (m : List Block) (k : Nat)
    (rest : List Block) : Prop where
  pieces : Pieces b k rest
  tiled : Tiled mem' (l ++ ⟨b.addr, k, false⟩ :: rest ++ m)
  canary : load32 mem' (b.addr + 16 + k - 4) = tailMagic
  outside : ∀ x, x < b.addr ∨ b.addr + 16 + b.size ≤ x → mem' x = mem x

theorem Tiled.take (tiled : Tiled mem (l ++ b :: m)) (free : b.free = true)
    (fits : size ≤ b.size) (room : 4 ≤ size) :
    ∃ k rest, size ≤ k ∧ Taken mem (takeBlock mem b.addr size) l b m k rest := by
  have window := tiled.window here
  have word : firstOf m 0 < 2 ^ 32 := firstOf_lt fun c member => by
    have bounds := tiled.window (b := c) (mem_append_right _ (mem_cons_of_mem _ member))
    omega
  obtain ⟨k, rest, large, pieces, header, listed⟩ :=
    splitBlock_listed tiled.header free fits (by omega) word
  have small := pieces.le
  have marked := header.mark false
  -- the canary goes where the size of the block, as it is now, says
  have memory : takeBlock mem b.addr size = store32 (store32 (splitBlock mem b.addr size)
      (b.addr + 8) 0) (b.addr + 16 + k - 4) tailMagic := by
    have size : sizeAt (store32 (splitBlock mem b.addr size) (b.addr + 8) 0) b.addr = k :=
      marked.size
    unfold takeBlock
    dsimp only
    rw [size]
    rfl
  have outside : ∀ x, x < b.addr ∨ b.addr + 16 + b.size ≤ x →
      takeBlock mem b.addr size x = mem x := by
    intro x off
    rw [memory, store32_outside (by omega), store32_outside (by omega),
      splitBlock_outside tiled.header off]
  refine ⟨k, rest, large, pieces, ?_, ?_, outside⟩
  · refine tiled.replace (pieces.tiles tiled.tiles) ⟨?_, listed.congr ?_⟩ rfl nofun outside
    · refine marked.congr fun x low high => ?_
      dsimp only at low high
      rw [memory, store32_outside (by omega)]
      rfl
    · intro c member x low high
      have beyond : b.addr + 16 + k ≤ c.addr := by
        rcases pieces with ⟨rfl, -⟩ | ⟨rfl, -⟩
        · cases member
        · rw [mem_singleton.mp member]
      rw [memory, store32_outside (by omega), store32_outside (by omega)]
  · rw [memory]
    exact load32_store32 (by decide)

/-- `kmalloc` returns; a pointer that is not null is that of a block with room for what the
size is rounded to. -/
theorem Tiled.kmalloc_cases (tiled : Tiled mem l) (size : Nat) :
    ∃ p mem', kmalloc mem size = some (p, mem') ∧ (p = 0 ∧ mem' = mem ∨ 0 < size ∧
      ∃ b ∈ l, b.free = true ∧ alignUp8 (alignUp8 size + 4) ≤ b.size ∧ p = b.addr + 16 ∧
        mem' = takeBlock mem b.addr (alignUp8 (alignUp8 size + 4))) := by
  obtain ⟨r, run, chosen⟩ := bestFit_chosen (alignUp8 (alignUp8 size + 4))
    (fun b member => ⟨member, tiled.nonzero member⟩) tiled.listed tiled.few (inl rfl)
  rw [tiled.first] at run
  unfold Heap.kmalloc
  split
  · exact ⟨0, mem, rfl, .inl ⟨rfl, rfl⟩⟩
  rename_i positive
  dsimp only
  rw [run]
  rcases chosen with none | ⟨b, member, rfl, free, fits⟩
  · exact ⟨0, mem, if_pos none, .inl ⟨rfl, rfl⟩⟩
  · exact ⟨_, _, if_neg (tiled.nonzero member), .inr ⟨Nat.pos_of_ne_zero positive, b, member, free,
      fits, rfl, rfl⟩⟩

theorem Tiled.kmalloc (tiled : Tiled mem l) {n : Nat}
    (room : 4 ≤ alignUp8 (alignUp8 n + 4)) :
    ∃ p mem', kmalloc mem n = some (p, mem') ∧ (p = 0 ∧ mem' = mem ∨
      ∃ front b back k rest, l = front ++ b :: back ∧ b.free = true ∧ p = b.addr + 16 ∧
        alignUp8 (alignUp8 n + 4) ≤ k ∧ Taken mem mem' front b back k rest) := by
  obtain ⟨p, mem', run, null | ⟨-, b, member, free, fits, rfl, rfl⟩⟩ := tiled.kmalloc_cases n
  · exact ⟨p, mem', run, .inl null⟩
  obtain ⟨front, back, rfl⟩ := append_of_mem member
  obtain ⟨k, rest, large, taken⟩ := tiled.take free fits room
  exact ⟨_, _, run, .inr ⟨front, b, back, k, rest, rfl, free, rfl, large, taken⟩⟩

/-! ## Release -/

theorem linked_eq (listed : Listed mem l 0)
    (window : ∀ c ∈ l, heapAddrInRange c.addr = true ∧ c.addr ≠ 0) (enough : l.length < fuel) :
    linked mem a fuel (firstOf l 0) = some (l.any fun c => c.addr = a) := by
  induction l generalizing fuel with
  | nil =>
    obtain _ | fuel := fuel
    · omega
    rfl
  | cons c l ih =>
    rw [length_cons] at enough
    obtain _ | fuel := fuel
    · omega
    obtain ⟨header, rest⟩ := listed
    obtain ⟨inside, nonzero⟩ := window c mem_cons_self
    rw [firstOf, linked, if_neg nonzero, if_neg (by simp [inside]),
      if_neg (not_not.mpr header.magic), header.next,
      ih rest (fun d later => window d (mem_cons_of_mem _ later)) (by omega)]
    by_cases here : c.addr = a <;> simp [here]

theorem Tiled.linked (tiled : Tiled mem l) (a : Nat) :
    linked mem a rounds heapStart = some (l.any fun c => c.addr = a) := by
  rw [← tiled.first]
  exact linked_eq tiled.listed (fun c member => ⟨tiled.inRange member, tiled.nonzero member⟩)
    tiled.few

/-- Bytes that belong to no header of the list. -/
def OffHeaders (l : List Block) (x : Nat) : Prop := ∀ b ∈ l, x < b.addr ∨ b.addr + 16 ≤ x

theorem joinNext_listed (tiles : Tiles 16 a (b :: c :: l) e) (listed : Listed mem (b :: c :: l) 0)
    (small : e ≤ 0x03000000) :
    Listed (joinNext mem b.addr c.addr) (b.join 16 c :: l) 0 ∧
      ∀ x, OffHeaders (b :: c :: l) x → joinNext mem b.addr c.addr x = mem x := by
  obtain ⟨⟨magic, size, free, -⟩, header', rest⟩ := listed
  obtain ⟨here, next, after⟩ := tiles
  have room := after.length_le
  have word : firstOf l 0 < 2 ^ 32 := Tiled.firstOf_lt fun d member => by
    have bound := after.bounds member
    omega
  simp only [magicAt, sizeAt, freeAt] at magic size free
  have joined : joinNext mem b.addr c.addr = store32 (store32 (store32 mem c.addr 0) (b.addr + 4)
      (b.size + (c.size + 16))) (b.addr + 12) (firstOf l 0) := by
    unfold joinNext headerSize
    rw [header'.size, header'.next]
    simp (disch := omega) only [sizeAt, load32_store32_outside, size]
  rw [joined]
  refine ⟨⟨?_, rest.congr fun d member x low high => ?_⟩, fun x off => ?_⟩
  · constructor <;>
      simp (disch := omega) only [Block.join, magicAt, sizeAt, freeAt, nextAt,
        load32_store32_outside, load32_store32, magic, free]
  · have bound := after.bounds member
    simp (disch := omega) only [store32_outside]
  · have outside := off b mem_cons_self
    have outside' := off c (mem_cons_of_mem _ mem_cons_self)
    simp (disch := omega) only [store32_outside]

theorem coalesceWalk_listed (tiles : Tiles 16 a l e) (above : 0 < a) (small : e ≤ 0x03000000)
    (listed : Listed mem l 0) (enough : l.length < fuel) :
    ∃ mem', coalesceWalk fuel (firstOf l 0) mem = some mem' ∧ Listed mem' (coalesce 16 l) 0 ∧
      ∀ x, OffHeaders l x → mem' x = mem x := by
  induction l using coalesce.induct 16 generalizing a mem fuel with
  | case1 =>
    obtain _ | fuel := fuel
    · omega
    exact ⟨mem, rfl, by simp [coalesce, Listed], fun _ _ => rfl⟩
  | case2 b =>
    rw [length_singleton] at enough
    obtain ⟨fuel, rfl⟩ : ∃ k, fuel = k + 2 := ⟨fuel - 2, by omega⟩
    obtain ⟨header, -⟩ := listed
    have nonzero : b.addr ≠ 0 := by rw [tiles.1]; omega
    refine ⟨mem, ?_, by simpa [coalesce, Listed, firstOf] using header, fun _ _ => rfl⟩
    rw [firstOf, coalesceWalk, if_neg nonzero, if_neg (not_not.mpr header.magic), header.next]
    rw [if_neg (by simp [firstOf])]
    rfl
  | case3 b c l free ih =>
    rw [length_cons, length_cons] at enough
    obtain _ | fuel := fuel
    · omega
    obtain ⟨joined, kept⟩ := joinNext_listed tiles listed small
    have fewer : (b.join 16 c :: l).length < fuel := by
      rw [length_cons]
      omega
    obtain ⟨mem', run, list, off⟩ := ih tiles.join above joined fewer
    obtain ⟨header, header', -⟩ := listed
    obtain ⟨here, next, after⟩ := tiles
    have nonzero : b.addr ≠ 0 := by omega
    have nonzero' : c.addr ≠ 0 := by omega
    refine ⟨mem', ?_, ?_, ?_⟩
    · rw [firstOf, coalesceWalk, if_neg nonzero, if_neg (not_not.mpr header.magic), header.next]
      dsimp only [firstOf]
      rw [if_pos ⟨header.free_iff.mpr free.1, nonzero'⟩, if_neg (not_not.mpr header'.magic),
        if_pos (header'.free_iff.mpr free.2)]
      exact run
    · rw [coalesce_join free]
      exact list
    · intro x outside
      rw [off x, kept x outside]
      intro d member
      rcases mem_cons.mp member with rfl | later
      · exact outside b mem_cons_self
      · exact outside d (mem_cons_of_mem _ (mem_cons_of_mem _ later))
  | case4 b c l apart ih =>
    rw [length_cons] at enough
    obtain _ | fuel := fuel
    · omega
    obtain ⟨header, rest⟩ := listed
    obtain ⟨here, tiles'⟩ := tiles
    have nonzero : b.addr ≠ 0 := by omega
    have fewer : (c :: l).length < fuel := by omega
    obtain ⟨mem', run, list, off⟩ := ih tiles' (by omega) rest fewer
    refine ⟨mem', ?_, ?_,
      fun x outside => off x fun d member => outside d (mem_cons_of_mem _ member)⟩
    · rw [firstOf, coalesceWalk, if_neg nonzero, if_neg (not_not.mpr header.magic), header.next]
      dsimp only
      split
      · rename_i busy
        have magic : ¬ magicAt mem (firstOf (c :: l) 0) ≠ heapMagic := not_not.mpr rest.1.magic
        have used : ¬ freeAt mem (firstOf (c :: l) 0) ≠ 0 := fun free =>
          apart ⟨header.free_iff.mp busy.1, rest.1.free_iff.mp free⟩
        rw [if_neg magic, if_neg used]
        exact run
      · exact run
    · rw [coalesce_skip apart]
      obtain ⟨c', l', result, addr, -⟩ := coalesce_cons 16 c l
      refine ⟨?_, list⟩
      have target : firstOf (coalesce 16 (c :: l)) 0 = firstOf (c :: l) 0 := by
        rw [result]
        exact addr
      rw [target]
      refine header.congr fun x low high => off x fun d member => ?_
      have bound := tiles'.bounds member
      omega

theorem Tiled.kfreeImpl_used (tiled : Tiled mem (l ++ b :: m)) (used : b.free = false)
    (room : 4 ≤ b.size) (canary : load32 mem (b.addr + 16 + b.size - 4) = tailMagic) :
    ∃ mem', kfreeImpl mem (b.addr + 16) = some mem' ∧
      Tiled mem' (coalesce 16 (l ++ { b with free := true } :: m)) ∧
      ∀ x, OffHeaders (l ++ b :: m) x → mem' x = mem x := by
  have header := tiled.header
  have marked : Tiled (store32 mem (b.addr + 8) 1) (l ++ { b with free := true } :: m) := by
    have whole := tiled.tiles.replace (c := { b with free := true }) rfl rfl
    simpa using tiled.replace (r := [{ b with free := true }]) (by simpa using whole)
      ⟨header.mark true, trivial⟩ rfl nofun fun x outside => store32_outside (by omega)
  obtain ⟨mem', run, joined, off⟩ := coalesceWalk_listed marked.tiles (by decide) (by decide)
    marked.listed marked.few
  rw [marked.first] at run
  refine ⟨mem', ?_, ⟨marked.tiles.coalesce, joined⟩, ?_⟩
  · unfold kfreeImpl
    rw [show b.addr + 16 - headerSize = b.addr from Nat.add_sub_cancel ..]
    dsimp only
    rw [if_neg (by simp [tiled.inRange here]), tiled.linked]
    simp only [any_append, any_cons, decide_true, Bool.true_or, Bool.or_true]
    rw [if_neg, run]
    rw [header.magic, header.size, header.free, used, canary]
    simp only [ne_eq, not_true_eq_false, Bool.toNat_false, false_or, or_false]
    omega
  · intro x outside
    have mine := outside b here
    rw [off x, store32_outside (by omega)]
    intro c member
    rcases mem_append.mp member with early | late
    · exact outside c (mem_append_left _ early)
    rcases mem_cons.mp late with rfl | later
    · exact mine
    · exact outside c (mem_append_right _ (mem_cons_of_mem _ later))

theorem Tiled.kfreeImpl_other (tiled : Tiled mem l) {p : Nat}
    (other : ∀ b ∈ l, b.free = false → p ≠ b.addr + 16) : kfreeImpl mem p = some mem := by
  unfold kfreeImpl
  dsimp only
  split
  · rfl
  rw [tiled.linked]
  cases found : l.any fun c => c.addr = p - headerSize with
  | false => rfl
  | true =>
    obtain ⟨c, member, addr⟩ := any_eq_true.mp found
    have bounds := tiled.window member
    have pointer : p = c.addr + 16 := by
      have addr := of_decide_eq_true addr
      unfold headerSize at addr
      omega
    have free : c.free = true := by
      by_contra used
      exact other c member (by simpa using used) pointer
    obtain ⟨front, back, rfl⟩ := append_of_mem member
    rw [← of_decide_eq_true addr]
    exact if_pos (.inr (.inr (.inr (tiled.header.free_iff.mpr free))))

/-! ## Owners -/

structure Sound (s : State) (l : List Block) : Prop where
  tiles : Tiles 16 heapStart l heapEnd
  listed : Listed s.mem l 0
  spread : Spread l
  canary : ∀ b ∈ l, b.free = false → load32 s.mem (b.addr + 16 + b.size - 4) = tailMagic
  live : ∀ p n, s.live p = some n → ∃ b ∈ l, b.free = false ∧ p = b.addr + 16 ∧ n + 4 ≤ b.size
  owned : ∀ b ∈ l, b.free = false → ∃ n, s.live (b.addr + 16) = some n

namespace Sound

variable {s : State}

theorem tiled (sound : Sound s l) : Tiled s.mem l := ⟨sound.tiles, sound.listed⟩

theorem room (sound : Sound s l) (member : b ∈ l) (used : b.free = false) : 4 ≤ b.size := by
  obtain ⟨n, owner⟩ := sound.owned b member used
  obtain ⟨c, member', -, here, fits⟩ := sound.live _ n owner
  have same := sound.tiles.eq_of_addr (by decide) member member' (by omega)
  rw [same]
  omega

variable {p n : Nat}

theorem write (sound : Sound s l) (owner : s.live p = some n)
    (same : ∀ x, x < p ∨ p + n ≤ x → mem x = s.mem x) : Sound { s with mem } l := by
  obtain ⟨b, member, used, rfl, fits⟩ := sound.live p n owner
  refine ⟨sound.tiles, sound.listed.congr ?_, sound.spread, ?_, sound.live, sound.owned⟩
  · intro c member' x low high
    refine same x ?_
    rcases sound.tiles.apart member member' with rfl | before | after
    · omega
    · omega
    · omega
  · intro c member' used'
    have room := sound.room member' used'
    refine Eq.trans (load32_congr fun j small => same _ ?_) (sound.canary c member' used')
    rcases sound.tiles.apart member member' with rfl | before | after
    · omega
    · omega
    · omega

theorem boot (mem : Memory) : Sound (boot mem) [⟨heapStart, heapSize - headerSize, true⟩] := by
  refine ⟨⟨rfl, rfl⟩, ⟨?_, trivial⟩, isChain_singleton _, by simp, nofun, by simp⟩
  exact header_writeHeader ⟨heapStart, heapSize - headerSize, true⟩ (by decide) (by decide)

theorem canary_of_outside (sound : Sound s l) (member : b ∈ l) (member' : c ∈ l) (other : c ≠ b)
    (used : c.free = false)
    (same : ∀ x, x < b.addr ∨ b.addr + 16 + b.size ≤ x → mem x = s.mem x) :
    load32 mem (c.addr + 16 + c.size - 4) = tailMagic := by
  have room := sound.room member' used
  refine Eq.trans (load32_congr fun i small => same _ ?_) (sound.canary c member' used)
  rcases sound.tiles.apart member' member with rfl | before | after
  · exact absurd rfl other
  · omega
  · omega

theorem take (sound : Sound s (l ++ b :: m)) (free : b.free = true)
    (taken : Taken s.mem mem l b m k rest) (asked : n + 4 ≤ k) :
    Sound ⟨mem, update s.live (b.addr + 16) (some n)⟩
      (l ++ ⟨b.addr, k, false⟩ :: rest ++ m) := by
  have used := fun c (taken' : c.free = false) =>
    taken.pieces.used (c := c) (l := l) (m := m) free taken'
  refine ⟨taken.tiled.tiles, taken.tiled.listed, taken.pieces.spread sound.spread free, ?_, ?_, ?_⟩
  · intro c member taken'
    rcases (used c taken').mp member with old | rfl
    · exact sound.canary_of_outside Tiled.here old (ne_of_free free taken') taken' taken.outside
    · exact taken.canary
  · intro p n' owner
    dsimp only at owner
    rw [update_apply] at owner
    split at owner
    · rename_i here
      cases owner
      exact ⟨⟨b.addr, k, false⟩, (used _ rfl).mpr (.inr rfl), rfl, here, asked⟩
    · obtain ⟨c, member, taken', here, fits⟩ := sound.live p n' owner
      exact ⟨c, (used c taken').mpr (.inl member), taken', here, fits⟩
  · intro c member taken'
    dsimp only
    rw [update_apply]
    split
    · exact ⟨n, rfl⟩
    rename_i elsewhere
    rcases (used c taken').mp member with old | rfl
    · exact sound.owned c old taken'
    · exact absurd rfl elsewhere

/-- The bytes that the owners were given. -/
def SameBytes (s : State) (mem : Memory) : Prop :=
  ∀ p n, s.live p = some n → ∀ i < n, mem (p + i) = s.mem (p + i)

theorem asked (small : size ≤ 2 ^ 32 - 16) :
    size + 4 ≤ alignUp8 (alignUp8 size + 4) := by
  unfold alignUp8
  omega

theorem kmalloc (sound : Sound s l) (positive : 0 < size) (small : size ≤ 2 ^ 32 - 16) :
    ∃ p mem, kmalloc s.mem size = some (p, mem) ∧ SameBytes s mem ∧ (p = 0 ∧ mem = s.mem ∨
      p ≠ 0 ∧ s.live p = none ∧ ∃ l', Sound ⟨mem, update s.live p (some size)⟩ l') := by
  have room := asked small
  obtain ⟨p, mem, run, ⟨rfl, rfl⟩ | ⟨front, b, back, k, rest, rfl, free, rfl, large, taken⟩⟩ :=
    sound.tiled.kmalloc (n := size) (by omega)
  · exact ⟨0, s.mem, run, fun _ _ _ _ _ => rfl, .inl ⟨rfl, rfl⟩⟩
  refine ⟨_, mem, run, ?_, .inr ⟨by omega, ?_, _, sound.take free taken (by omega)⟩⟩
  · intro p n owner i inside
    obtain ⟨c, member, used, rfl, fits⟩ := sound.live p n owner
    have other := ne_of_free free used
    exact taken.outside _ ((sound.tiled.apart member Tiled.here (by omega) (by omega)).2 other.symm)
  · by_contra owner
    obtain ⟨n, owner⟩ := ne_none_iff_exists'.mp owner
    obtain ⟨c, member, used, here, -⟩ := sound.live _ n owner
    have same := sound.tiles.eq_of_addr (by decide) Tiled.here member (by omega)
    rw [same, used] at free
    cases free

theorem kfreeImpl (sound : Sound s l) (owner : s.live p = some n) :
    ∃ mem, kfreeImpl s.mem p = some mem ∧ SameBytes s mem ∧
      ∃ l', Sound ⟨mem, update s.live p none⟩ l' ∧
        ∀ c, c.free = false → (c ∈ l' ↔ c ∈ l ∧ p ≠ c.addr + 16) := by
  obtain ⟨b, member, used, rfl, fits⟩ := sound.live p n owner
  have canary := sound.canary b member used
  obtain ⟨front, back, rfl⟩ := append_of_mem member
  obtain ⟨mem, run, tiled, off⟩ := sound.tiled.kfreeImpl_used used (by omega) canary
  -- the used blocks are those around the one that is given back
  have usedBlocks : ∀ c, c.free = false →
      (c ∈ coalesce 16 (front ++ { b with free := true } :: back) ↔
        c ∈ front ++ b :: back ∧ b.addr + 16 ≠ c.addr + 16) := by
    intro c taken
    have different : c ≠ { b with free := true } := by
      rintro rfl
      cases taken
    rw [mem_coalesce taken]
    simp only [mem_append, mem_cons, different, false_or]
    constructor
    · intro around
      have member' : c ∈ front ++ b :: back := by
        simp only [mem_append, mem_cons]
        exact around.imp_right .inr
      refine ⟨by simpa using member', ?_⟩
      obtain ⟨mid, before, here, after⟩ := Tiles.append.mp sound.tiles
      rcases around with early | late
      · have bounds := before.bounds early
        omega
      · have bounds := after.bounds late
        omega
    · rintro ⟨early | rfl | late, elsewhere⟩
      · exact .inl early
      · exact absurd rfl elsewhere
      · exact .inr late
  have sameBytes : ∀ c ∈ front ++ b :: back, c.free = false → ∀ x, c.addr + 16 ≤ x →
      x < c.addr + 16 + c.size → mem x = s.mem x := fun c inside _ x low high =>
    off x fun d member' => (sound.tiled.apart inside member' low high).1
  refine ⟨mem, run, ?_, _, ⟨tiled.tiles, tiled.listed, spread_coalesce _, ?_, ?_, ?_⟩, usedBlocks⟩
  · intro q n' owner' i inside
    obtain ⟨c, member', taken, rfl, fits'⟩ := sound.live q n' owner'
    exact sameBytes c member' taken _ (by omega) (by omega)
  · intro c inside taken
    have old := ((usedBlocks c taken).mp inside).1
    have room := sound.room old taken
    refine Eq.trans (load32_congr fun i small => ?_) (sound.canary c old taken)
    exact sameBytes c old taken _ (by omega) (by omega)
  · intro q n' owner'
    dsimp only at owner'
    rw [update_apply] at owner'
    split at owner'
    · cases owner'
    rename_i elsewhere
    obtain ⟨c, inside, taken, rfl, fits'⟩ := sound.live q n' owner'
    exact ⟨c, (usedBlocks c taken).mpr ⟨inside, Ne.symm elsewhere⟩, taken, rfl, fits'⟩
  · intro c inside taken
    obtain ⟨old, elsewhere⟩ := (usedBlocks c taken).mp inside
    dsimp only
    rw [update_of_ne (Ne.symm elsewhere)]
    exact sound.owned c old taken

/-- The header of an allocated pointer has the magic, so `kfree` gives it back at once. -/
theorem kfree_eq (sound : Sound s l) (owner : s.live p = some n) :
    kfree s.mem p = Heap.kfreeImpl s.mem p := by
  obtain ⟨b, member, used, rfl, fits⟩ := sound.live p n owner
  obtain ⟨front, back, rfl⟩ := append_of_mem member
  unfold kfree
  rw [show b.addr + 16 - headerSize = b.addr from Nat.add_sub_cancel .., if_neg (by omega),
    if_pos ⟨sound.tiled.inRange member, sound.tiled.header.magic⟩]

theorem kfree (sound : Sound s l) (owner : s.live p = some n) :
    ∃ mem, kfree s.mem p = some mem ∧ ∃ l', Sound ⟨mem, update s.live p none⟩ l' := by
  obtain ⟨mem, run, -, l', sound', -⟩ := sound.kfreeImpl owner
  exact ⟨mem, (sound.kfree_eq owner).trans run, l', sound'⟩

/-! ## Every history -/

theorem step (sound : Sound s l) {a : Action} {t : State} (run : step s a = some t) :
    ∃ l', Sound t l' := by
  cases a with
  | kmalloc size =>
    rw [Heap.step] at run
    split at run
    · rename_i asked
      obtain ⟨p, mem, result, -, outcome⟩ := sound.kmalloc asked.1 (asked.2.trans (by decide))
      rw [result] at run
      cases run
      rcases outcome with ⟨rfl, rfl⟩ | ⟨nonzero, -, l', sound'⟩
      · exact ⟨l, sound⟩
      dsimp only
      rw [if_neg nonzero]
      exact ⟨l', sound'⟩
    · cases run
  | kfree ptr =>
    rw [Heap.step] at run
    split at run
    · rename_i isLive
      obtain ⟨n, owner⟩ := isSome_iff_exists.mp isLive
      obtain ⟨mem, result, l', sound'⟩ := sound.kfree owner
      rw [result] at run
      cases run
      exact ⟨l', sound'⟩
    · cases run
  | write ptr i v =>
    rw [Heap.step] at run
    split at run
    · cases run
    rename_i n owner
    split at run
    · cases run
      exact ⟨l, sound.write owner fun x outside => update_of_ne (by omega) ..⟩
    · cases run

theorem all_free (sound : Sound s l) (empty : ∀ p, s.live p = none) :
    l = [⟨heapStart, heapSize - headerSize, true⟩] := by
  have allFree : ∀ b ∈ l, b.free = true := by
    intro b member
    by_contra used
    obtain ⟨n, owner⟩ := sound.owned b member (by simpa using used)
    rw [empty] at owner
    cases owner
  have tiles := sound.tiles
  cases l with
  | nil =>
    have empty : heapStart = heapEnd := tiles
    exact absurd empty (by decide)
  | cons b l =>
    have single := sound.spread.single allFree
    subst single
    obtain ⟨here, last⟩ := tiles
    have free := allFree b (mem_singleton.mpr rfl)
    have size : b.size = heapSize - headerSize := by
      have whole : heapStart + 16 + b.size = heapEnd := last
      unfold heapEnd at whole
      unfold headerSize
      omega
    rw [← here, ← size, ← free]

/-- Between the bytes of two owners lie a canary and a header. -/
theorem disjoint (sound : Sound s l) {q : Nat} (different : p ≠ q) (owner : s.live p = some n)
    (owner' : s.live q = some k) : p + n + 20 ≤ q ∨ q + k + 20 ≤ p := by
  obtain ⟨b, member, -, here, fits⟩ := sound.live p n owner
  obtain ⟨c, member', -, here', fits'⟩ := sound.live q k owner'
  rcases sound.tiles.apart member member' with rfl | before | after
  · exact absurd (here.trans here'.symm) different
  · exact inl (by omega)
  · exact inr (by omega)

theorem live_iff (sound : Sound s l) (p : Nat) :
    (s.live p).isSome = true ↔ ∃ b ∈ l, b.free = false ∧ p = b.addr + 16 := by
  rw [isSome_iff_exists]
  constructor
  · rintro ⟨n, owner⟩
    obtain ⟨b, member, used, here, -⟩ := sound.live p n owner
    exact ⟨b, member, used, here⟩
  · rintro ⟨b, member, used, rfl⟩
    exact sound.owned b member used

end Sound

/-- In every history of calls and writes the blocks, in the order of their links, tile the window;
their headers and canaries are whole; no two neighbours are free; the allocated pointers are the
used blocks and do not overlap; nothing allocated is one free block; and the calls return. -/
theorem heap_stays_tiled (mem : Memory) (s : State)
    (reached : Reach (· = boot mem) (fun s a t => step s a = some t) s) :
    (∃ l, Listed s.mem l 0 ∧ Tiles headerSize heapStart l heapEnd ∧ Spread l ∧
      (∀ p, (s.live p).isSome = true ↔ ∃ b ∈ l, b.free = false ∧ p = b.addr + headerSize) ∧
      (∀ b ∈ l, b.free = false → load32 s.mem (b.addr + headerSize + b.size - 4) = tailMagic) ∧
      (∀ p n, s.live p = some n → ∃ b ∈ l, p = b.addr + headerSize ∧ n + 4 ≤ b.size) ∧
      ((∀ p, s.live p = none) → l = [⟨heapStart, heapSize - headerSize, true⟩])) ∧
    (∀ p q n k, p ≠ q → s.live p = some n → s.live q = some k → p + n ≤ q ∨ q + k ≤ p) ∧
    (∀ n, 0 < n → n ≤ heapSize → (kmalloc s.mem n).isSome = true) ∧
    (∀ p, (s.live p).isSome = true → (kfree s.mem p).isSome = true) := by
  obtain ⟨l, sound⟩ : ∃ l, Sound s l := by
    refine invariant (fun s => ∃ l, Sound s l) ?_ ?_ reached
    · rintro _ rfl
      exact ⟨_, .boot mem⟩
    · rintro before a after ⟨l, sound⟩ run
      exact sound.step run
  refine ⟨⟨l, sound.listed, sound.tiles, sound.spread, sound.live_iff, sound.canary, ?_,
    sound.all_free⟩, ?_, ?_, ?_⟩
  · intro p n owner
    obtain ⟨b, member, -, here, fits⟩ := sound.live p n owner
    exact ⟨b, member, here, fits⟩
  · intro p q n k different owner owner'
    have between := sound.disjoint different owner owner'
    omega
  · intro n positive small
    obtain ⟨p, mem', run, -⟩ := sound.kmalloc positive (small.trans (by decide))
    rw [run]
    rfl
  · intro p isLive
    obtain ⟨n, owner⟩ := isSome_iff_exists.mp isLive
    obtain ⟨mem', run, -⟩ := sound.kfree owner
    rw [run]
    rfl

/-- Two blocks are allocated and the first is given back. -/
theorem heap_stays_tiled_after_kfree :
    ∃ s, [Action.kmalloc 24, .kmalloc 8, .kfree 0x02000010].foldlM step (boot fun _ => 0) = some s ∧
      s.live 0x02000040 = some 8 ∧ (kfree s.mem 0x02000040).isSome = true := by
  have reached : Reach (· = boot fun _ => 0) (fun s a t => step s a = some t) _ :=
    of_foldlM (fun _ _ _ move => move) [.kmalloc 24, .kmalloc 8, .kfree 0x02000010] (start rfl) rfl
  exact ⟨_, rfl, rfl, (heap_stays_tiled _ _ reached).2.2.2 _ rfl⟩

end CactKernel.Heap
