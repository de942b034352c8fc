import CactKernel.Memory.SwapOwners

/-! # The clock of the page evictor

The hand of `swap_evict_page` goes around the pages of the directory entries 32 to 1023. A round of
the loop takes it at least one page further and never past a page that can be evicted. So within
one lap it comes to such a page, within two laps it comes there again, and two laps are the bound
of the loop. -/

set_option autoImplicit false

namespace CactKernel.Memory

open Option Function

/-- A page that may be evicted: present with `PAGE_USER`, in a private table of index 32 or more. -/
def Mem.Evictable (m : Mem) (d : DirId) (v : Nat) : Prop :=
  32 * 1024 ≤ v ∧ ∃ e, m.ownPte d v = some e ∧ e.holds = true

/-- The positions that can be in `G_CLOCK_PDI` and `G_CLOCK_PTJ`. -/
def Saved (hand : Nat × Nat) : Prop := 32 ≤ hand.1 ∧ hand.1 ≤ 1024 ∧ hand.2 < 1024

/-- The page that the loop looks at. -/
def place (hand : Nat × Nat) : Nat × Nat := if 1024 ≤ hand.1 then (32, 0) else hand

/-- How far page `v` is ahead of the hand. -/
def ahead (hand : Nat × Nat) (v : Nat) : Nat :=
  if 1024 * hand.1 + hand.2 ≤ v then v - (1024 * hand.1 + hand.2)
  else v + 992 * 1024 - (1024 * hand.1 + hand.2)

variable {m : Mem} {d : DirId} {v : Nat} {hand : Nat × Nat}

theorem place_saved (saved : Saved hand) :
    32 ≤ (place hand).1 ∧ (place hand).1 < 1024 ∧ (place hand).2 < 1024 := by
  unfold place Saved at *
  split
  · decide
  · omega

section Around

variable (low : 32 ≤ hand.1) (high : hand.1 < 1024) (column : hand.2 < 1024)
include low high column

omit column in
theorem saved_skip : Saved (hand.1 + 1, 0) := by
  unfold Saved
  dsimp only
  omega

theorem saved_next : Saved (clockNext hand) := by
  unfold Saved clockNext
  split <;> dsimp only <;> omega

variable (target : 32 * 1024 ≤ v) (inside : v < addressPages)
include target inside

theorem ahead_lt : ahead hand v < 992 * 1024 := by
  unfold ahead addressPages at *
  split <;> omega

theorem ahead_next (other : 1024 * hand.1 + hand.2 ≠ v) :
    ahead (place (clockNext hand)) v < ahead hand v := by
  unfold ahead place clockNext addressPages at *
  split_ifs <;> dsimp only at * <;> omega

theorem ahead_skip (other : v / 1024 ≠ hand.1) :
    ahead (place (hand.1 + 1, 0)) v < ahead hand v := by
  unfold ahead place addressPages at *
  split_ifs <;> dsimp only at * <;> omega

end Around

theorem ownPte_none {u : Nat} (same : v / 1024 = u / 1024) (shared : m.ownPte d u = none) :
    m.ownPte d v = none := by
  unfold Mem.ownPte at *
  cases here : m.dirs d with
  | none => rfl
  | some dir =>
    rw [here, bind_some, Directory.ownPte] at shared
    rw [bind_some, Directory.ownPte, same]
    split at shared
    · rfl
    · cases shared

variable {rounds : Nat} {accessed : Nat → Bool}

theorem clockScan_round : clockScan m d (rounds + 1) hand accessed =
    match m.ownPte d (1024 * (place hand).1 + (place hand).2) with
    | none => clockScan m d rounds ((place hand).1 + 1, 0) accessed
    | some e =>
      if !e.holds then clockScan m d rounds (clockNext (place hand)) accessed
      else if accessed (1024 * (place hand).1 + (place hand).2) then
        clockScan m d rounds (clockNext (place hand))
          (update accessed (1024 * (place hand).1 + (place hand).2) false)
      else (some (1024 * (place hand).1 + (place hand).2, clockNext (place hand)), accessed) := rfl

/-- By induction on the rounds: the page comes nearer with each of them. -/
theorem clockScan_finds (evictable : m.Evictable d v) (inside : v < addressPages)
    (saved : Saved hand)
    (enough : ahead (place hand) v + (if accessed v then 992 * 1024 else 0) < rounds) :
    (clockScan m d rounds hand accessed).1.isSome = true := by
  obtain ⟨target, e, own, holds⟩ := evictable
  induction rounds generalizing hand accessed with
  | zero => omega
  | succ rounds ih =>
    obtain ⟨low, high, column⟩ := place_saved saved
    have next := saved_next low high column
    rw [clockScan_round]
    split
    · rename_i shared
      have other : v / 1024 ≠ (place hand).1 := by
        intro same
        rw [ownPte_none (by omega) shared] at own
        cases own
      have nearer := ahead_skip low high column target inside other
      exact ih (saved_skip low high) (by omega)
    rename_i found here
    by_cases same : 1024 * (place hand).1 + (place hand).2 = v
    · rw [same] at here ⊢
      cases own.symm.trans here
      rw [holds, Bool.not_true, if_neg Bool.false_ne_true]
      split
      · rename_i recent
        rw [if_pos recent] at enough
        have lap := ahead_lt (place_saved next).1 (place_saved next).2.1 (place_saved next).2.2
          target inside
        apply ih next
        rw [update_self, if_neg Bool.false_ne_true]
        omega
      · rfl
    have nearer := ahead_next low high column target inside same
    split
    · exact ih next (by omega)
    split
    · apply ih next
      rw [update_of_ne (Ne.symm same)]
      omega
    · rfl

theorem clockScan_touches {found : Option (Nat × (Nat × Nat))} {left : Nat → Bool}
    (saved : Saved hand) (run : clockScan m d rounds hand accessed = (found, left)) :
    (∀ u, ¬ m.Evictable d u → left u = accessed u) ∧
      ∀ v after, found = some (v, after) → m.Evictable d v ∧ Saved after := by
  induction rounds generalizing hand accessed with
  | zero =>
    cases run
    exact ⟨fun _ _ => rfl, nofun⟩
  | succ rounds ih =>
    obtain ⟨low, high, column⟩ := place_saved saved
    have next := saved_next low high column
    rw [clockScan_round] at run
    split at run
    · exact ih (saved_skip low high) run
    rename_i e own
    split at run
    · exact ih next run
    rename_i holds
    have here : m.Evictable d (1024 * (place hand).1 + (place hand).2) :=
      ⟨by omega, e, own, by simpa using holds⟩
    split at run
    · obtain ⟨others, taken⟩ := ih next run
      refine ⟨fun u spared => ?_, taken⟩
      have other : u ≠ 1024 * (place hand).1 + (place hand).2 := fun same => spared (same ▸ here)
      rw [others u spared, update_of_ne other]
    · cases run
      exact ⟨fun _ _ => rfl, fun _ _ same => by cases same; exact ⟨here, next⟩⟩

/-- Whatever the accessed bits and the hand are, `swap_evict_page` evicts a page if there is one, a
slot is free and the write succeeds; it looks at pages of that kind only, and leaves the hand at
a position that it can start from. -/
theorem second_chance_complete (s : Swapping) (d : DirId) (written : Bool)
    (saved : Saved s.dev.clock) :
    (written = true → s.dev.bitmapAlloc.isSome = true →
      (∃ v < addressPages, s.mem.Evictable d v) → (s.swapEvictPage d written).1 = true) ∧
    ((s.swapEvictPage d written).1 = true → ∃ v slot, s.mem.Evictable d v ∧
      (s.swapEvictPage d written).2.mem.pteAt d v =
        swapEncodePte slot (s.mem.pteAt d v).flags) ∧
    (∀ d' u, ¬ (d' = d ∧ s.mem.Evictable d u) →
      (s.swapEvictPage d written).2.mem.pteAt d' u = s.mem.pteAt d' u ∧
      (s.swapEvictPage d written).2.accessed d' u = s.accessed d' u) ∧
    (s.swapEvictPage d written).2.mem.kernel = s.mem.kernel ∧
    Saved (s.swapEvictPage d written).2.dev.clock := by
  have bits : ∀ {left : Nat → Bool}, (∀ u, ¬ s.mem.Evictable d u → left u = s.accessed d u) →
      ∀ d' u, ¬ (d' = d ∧ s.mem.Evictable d u) →
        update s.accessed d left d' u = s.accessed d' u := by
    intro left others d' u spared
    by_cases same : d' = d
    · rw [same, update_self]
      exact others u fun evictable => spared ⟨same, evictable⟩
    · rw [update_of_ne same]
  cases scan : clockScan s.mem d clockRounds s.dev.clock (s.accessed d) with
  | mk found left =>
  obtain ⟨others, taken⟩ := clockScan_touches saved scan
  cases found with
  | none =>
    simp only [Swapping.swapEvictPage, scan]
    refine ⟨?_, nofun, fun d' u spared => ⟨trivial, bits others d' u spared⟩, trivial, saved⟩
    rintro - - ⟨v, inside, evictable⟩
    obtain ⟨low, high, column⟩ := place_saved saved
    have lap := ahead_lt low high column evictable.1 inside
    have laps : ahead (place s.dev.clock) v + (if s.accessed d v then 992 * 1024 else 0) <
        clockRounds := by
      unfold clockRounds
      split <;> omega
    have found := clockScan_finds evictable inside saved laps
    rw [scan] at found
    cases found
  | some result =>
    obtain ⟨v, hand⟩ := result
    obtain ⟨evictable, next⟩ := taken v hand rfl
    obtain ⟨-, e, own, -⟩ := id evictable
    simp only [Swapping.swapEvictPage, scan]
    cases out : s.dev.swapOutPage (d, v) (s.mem.page (s.mem.pteAt d v).frame) written with
    | mk slot dev =>
    cases slot with
    | none =>
      refine ⟨?_, nofun, fun d' u spared => ⟨rfl, bits others d' u spared⟩, rfl, ?_⟩
      · rintro rfl free -
        obtain ⟨slot, first⟩ := isSome_iff_exists.mp free
        rw [Device.swapOutPage, first] at out
        cases out
      · rw [swapOutPage_none out]
        exact saved
    | some slot =>
      refine ⟨fun _ _ _ => rfl, fun _ => ⟨v, slot, evictable, ?_⟩,
        fun d' u spared => ⟨?_, bits others d' u spared⟩, Mem.kernel_setPte own, next⟩
      · exact (Mem.pteAt_setPte own).trans (if_pos ⟨rfl, rfl⟩)
      · refine (Mem.pteAt_setPte own).trans (if_neg ?_)
        rintro ⟨rfl, rfl⟩
        exact spared ⟨rfl, evictable⟩

/-- The page of the first process. -/
theorem second_chance_complete_first :
    (Swapping.twoProcs.swapEvictPage (1, 0) true).1 = true := by
  have page : Swapping.twoProcs.mem.Evictable (1, 0) 0x40000 := ⟨by decide, _, rfl, rfl⟩
  exact (second_chance_complete Swapping.twoProcs (1, 0) true ⟨by decide, by decide, by decide⟩).1
    rfl (by decide) ⟨0x40000, by decide, page⟩

end CactKernel.Memory
