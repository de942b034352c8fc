import Mathlib.Data.List.Chain

/-! # Blocks that tile an interval

A block is a header of `hdr` bytes and `size` bytes behind it. `Tiles hdr a l e`
says that the blocks of `l` lie one behind the other from `a` to `e`. A free block
can be split, and `coalesce` joins neighbours that are both free. -/

set_option autoImplicit false

namespace Lib

open List Or

structure Block where
  addr : Nat
  size : Nat
  free : Bool
  deriving DecidableEq, Repr

def Tiles (hdr : Nat) : Nat → List Block → Nat → Prop
  | a, [], e => a = e
  | a, b :: l, e => b.addr = a ∧ Tiles hdr (a + hdr + b.size) l e

namespace Tiles

variable {hdr a e : Nat} {l m : List Block} {b c : Block}

theorem append : Tiles hdr a (l ++ m) e ↔ ∃ mid, Tiles hdr a l mid ∧ Tiles hdr mid m e := by
  induction l generalizing a with
  | nil =>
    constructor
    · intro tiles
      exact ⟨a, rfl, tiles⟩
    · rintro ⟨mid, rfl, tiles⟩
      exact tiles
  | cons b l ih =>
    constructor
    · rintro ⟨here, rest⟩
      obtain ⟨mid, front, back⟩ := ih.mp rest
      exact ⟨mid, ⟨here, front⟩, back⟩
    · rintro ⟨mid, ⟨here, front⟩, back⟩
      exact ⟨here, ih.mpr ⟨mid, front, back⟩⟩

theorem length_le (tiles : Tiles hdr a l e) : a + l.length * hdr ≤ e := by
  induction l generalizing a with
  | nil =>
    have same : a = e := tiles
    simp [same]
  | cons b l ih =>
    have rest := ih tiles.2
    rw [length_cons, Nat.succ_mul]
    omega

theorem bounds (tiles : Tiles hdr a l e) (member : b ∈ l) :
    a ≤ b.addr ∧ b.addr + hdr + b.size ≤ e := by
  obtain ⟨front, back, rfl⟩ := append_of_mem member
  obtain ⟨mid, before, here, after⟩ := append.mp tiles
  have start := before.length_le
  have stop := after.length_le
  subst here
  constructor
  · omega
  · omega

theorem apart (tiles : Tiles hdr a l e) (first : b ∈ l) (second : c ∈ l) :
    b = c ∨ b.addr + hdr + b.size ≤ c.addr ∨ c.addr + hdr + c.size ≤ b.addr := by
  obtain ⟨front, back, rfl⟩ := append_of_mem first
  obtain ⟨mid, before, here, after⟩ := append.mp tiles
  rcases mem_append.mp second with early | later
  · have bound := before.bounds early
    exact inr (inr (by omega))
  rcases mem_cons.mp later with same | late
  · exact inl same.symm
  · have bound := after.bounds late
    exact inr (inl (by omega))

theorem eq_of_addr (tiles : Tiles hdr a l e) (room : 0 < hdr) (first : b ∈ l) (second : c ∈ l)
    (same : b.addr = c.addr) : b = c := by
  rcases tiles.apart first second with equal | before | after
  · exact equal
  · omega
  · omega

theorem replace {c : Block} (tiles : Tiles hdr a (l ++ b :: m) e) (addr : c.addr = b.addr)
    (size : c.size = b.size) : Tiles hdr a (l ++ c :: m) e := by
  obtain ⟨mid, before, here, after⟩ := append.mp tiles
  refine append.mpr ⟨mid, before, addr.trans here, ?_⟩
  rw [size]
  exact after

theorem split {n : Nat} {used rest : Bool} (tiles : Tiles hdr a (l ++ b :: m) e)
    (fits : n + hdr ≤ b.size) :
    Tiles hdr a (l ++ ⟨b.addr, n, used⟩ :: ⟨b.addr + hdr + n, b.size - n - hdr, rest⟩ :: m) e := by
  obtain ⟨mid, before, here, after⟩ := append.mp tiles
  refine append.mpr ⟨mid, before, here, ?_, ?_⟩
  · rw [here]
  · have same : mid + hdr + n + hdr + (b.size - n - hdr) = mid + hdr + b.size := by omega
    rw [same]
    exact after

end Tiles

/-! ## Joining free neighbours -/

/-- No two neighbours are both free. -/
def Spread (l : List Block) : Prop := l.IsChain fun b c => ¬ (b.free = true ∧ c.free = true)

/-- The block takes in its neighbour. -/
def Block.join (hdr : Nat) (b c : Block) : Block := { b with size := b.size + (c.size + hdr) }

def coalesce (hdr : Nat) : List Block → List Block
  | [] => []
  | [b] => [b]
  | b :: c :: l =>
    if b.free = true ∧ c.free = true then coalesce hdr (b.join hdr c :: l)
    else b :: coalesce hdr (c :: l)
termination_by l => l.length

variable {hdr a e : Nat} {l : List Block} {b : Block}

variable {b c : Block} {m : List Block}

theorem coalesce_join (free : b.free = true ∧ c.free = true) (l : List Block) :
    coalesce hdr (b :: c :: l) = coalesce hdr (b.join hdr c :: l) := by
  rw [coalesce, if_pos free]

theorem coalesce_skip (apart : ¬ (b.free = true ∧ c.free = true)) (l : List Block) :
    coalesce hdr (b :: c :: l) = b :: coalesce hdr (c :: l) := by
  rw [coalesce, if_neg apart]

theorem Tiles.join (tiles : Tiles hdr a (b :: c :: l) e) : Tiles hdr a (b.join hdr c :: l) e := by
  obtain ⟨here, next, rest⟩ := tiles
  refine ⟨here, ?_⟩
  have same : a + hdr + (b.join hdr c).size = a + hdr + b.size + hdr + c.size := by
    unfold Block.join
    dsimp only
    omega
  rw [same]
  exact rest

theorem Tiles.coalesce (tiles : Tiles hdr a l e) : Tiles hdr a (coalesce hdr l) e := by
  induction l using coalesce.induct hdr generalizing a with
  | case1 | case2 b => simpa [Lib.coalesce] using tiles
  | case3 b c l free ih =>
    rw [coalesce_join free]
    exact ih tiles.join
  | case4 b c l apart ih =>
    rw [coalesce_skip apart]
    exact ⟨tiles.1, ih tiles.2⟩

theorem coalesce_cons (hdr : Nat) (b : Block) (l : List Block) :
    ∃ b' m, coalesce hdr (b :: l) = b' :: m ∧ b'.addr = b.addr ∧ b'.free = b.free := by
  cases l with
  | nil => exact ⟨b, [], by rw [coalesce], rfl, rfl⟩
  | cons c l =>
    by_cases free : b.free = true ∧ c.free = true
    · rw [coalesce_join free]
      obtain ⟨b', m, result, addr, kept⟩ := coalesce_cons hdr (b.join hdr c) l
      exact ⟨b', m, result, addr, kept⟩
    · rw [coalesce_skip free]
      exact ⟨b, _, rfl, rfl, rfl⟩
termination_by l.length

theorem spread_coalesce (l : List Block) : Spread (coalesce hdr l) := by
  unfold Spread
  induction l using coalesce.induct hdr with
  | case1 | case2 b => simp [coalesce]
  | case3 b c l free ih =>
    rw [coalesce_join free]
    exact ih
  | case4 b c l apart ih =>
    rw [coalesce_skip apart]
    obtain ⟨c', m, result, -, kept⟩ := coalesce_cons hdr c l
    rw [result] at ih ⊢
    refine isChain_cons_cons.mpr ⟨?_, ih⟩
    rw [kept]
    exact apart

theorem mem_coalesce (used : b.free = false) : b ∈ coalesce hdr l ↔ b ∈ l := by
  induction l using coalesce.induct hdr with
  | case1 | case2 c => simp [coalesce]
  | case3 c d l free ih =>
    rw [coalesce_join free, ih, mem_cons, mem_cons, mem_cons]
    have notJoined : b ≠ c.join hdr d := by
      rintro rfl
      have same : (c.join hdr d).free = c.free := rfl
      rw [same, free.1] at used
      cases used
    have notFirst : b ≠ c := by
      rintro rfl
      rw [free.1] at used
      cases used
    have notSecond : b ≠ d := by
      rintro rfl
      rw [free.2] at used
      cases used
    simp [notJoined, notFirst, notSecond]
  | case4 c d l apart ih =>
    rw [coalesce_skip apart, mem_cons, ih, mem_cons (b := c)]

theorem Spread.take (spread : Spread (l ++ b :: m)) (used : c.free = false) :
    Spread (l ++ c :: m) := by
  obtain ⟨front, back⟩ := isChain_split.mp spread
  refine isChain_split.mpr ⟨?_, ?_⟩
  · obtain ⟨before, -, -⟩ := isChain_append.mp front
    refine isChain_append.mpr ⟨before, isChain_singleton _, ?_⟩
    intro x _ y last both
    cases last
    exact absurd both.2 (by simp [used])
  · cases m with
    | nil => exact isChain_singleton _
    | cons c m =>
      refine isChain_cons_cons.mpr ⟨fun both => ?_, (isChain_cons_cons.mp back).2⟩
      exact absurd both.1 (by simp [used])

theorem Spread.split {rest : Block} (spread : Spread (l ++ b :: m)) (free : b.free = true)
    (used : c.free = false) : Spread (l ++ c :: rest :: m) := by
  have taken := spread.take used
  obtain ⟨front, back⟩ := isChain_split.mp taken
  refine isChain_split.mpr ⟨front, isChain_cons_cons.mpr ⟨?_, ?_⟩⟩
  · intro both
    exact absurd both.1 (by simp [used])
  · cases m with
    | nil => exact isChain_singleton _
    | cons c m =>
      have next := (isChain_cons_cons.mp (isChain_split.mp spread).2).1
      refine isChain_cons_cons.mpr ⟨?_, (isChain_cons_cons.mp back).2⟩
      exact fun both => next ⟨free, both.2⟩

theorem Spread.single (spread : Spread (b :: l)) (free : ∀ c ∈ b :: l, c.free = true) : l = [] := by
  cases l with
  | nil => rfl
  | cons c l =>
    refine absurd ⟨free b ?_, free c ?_⟩ (isChain_cons_cons.mp spread).1
    · exact mem_cons_self ..
    · exact mem_cons_of_mem _ (mem_cons_self ..)

end Lib
