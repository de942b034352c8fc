import CactKernel.Memory.Regions

/-! # The search for a free address

`find_free_va` starts at `next_base`, which every mapping moves up and no unmapping moves down.
It finds a gap exactly if one begins there or above. -/

set_option autoImplicit false

namespace CactKernel.Memory

open Lib Nat

variable {t : MmapTable} {n c : Nat}

theorem findFreeVa_none_iff (bounded : t.Bounded) (small : n < addressPages) {fuel : Nat}
    (candidate : c < addressPages) (enough : addressPages ≤ c + fuel) :
    t.findFreeVa n fuel c = none ↔ ¬ ∃ g, c ≤ g ∧ t.Gap n g := by
  obtain ⟨gap, full⟩ : (∀ v, t.findFreeVa n fuel c = some v → _) ∧ _ :=
    findFreeVa_spec bounded small candidate
  refine ⟨full enough, fun nothing => ?_⟩
  cases found : t.findFreeVa n fuel c with
  | none => rfl
  | some v => exact absurd ⟨v, gap v found⟩ nothing

namespace RegionRun

variable {s s' : RegionRun}

theorem step_bounded {a : Action} (run : s.step a = some s') (bounded : ∀ p, (s.tables p).Bounded)
    (q : Nat) : (s'.tables q).Bounded := by
  have put : ∀ {p : Nat} {x : Vm} {mapped : Nat → Bool}, x.table.Bounded →
      ((s.put p x mapped).tables q).Bounded := by
    intro p x mapped after
    unfold RegionRun.put
    dsimp only
    rw [Function.update_apply]
    split
    · exact after
    · exact bounded q
  cases a with
  | mmap p args =>
    cases run
    exact put (doMmap_bounded (bounded p))
  | munmap p addr length =>
    rw [step] at run
    split at run
    · cases run
    rename_i word
    cases run
    exact put (doMunmap_bounded (bounded p) (not_le.mp word))
  | clone p c =>
    rw [← Option.some.inj run]
    exact put (bounded_clone _ (bounded p))
  | memory mem objects =>
    cases run
    exact bounded q

theorem reach_bounded (reached : Reach Start (fun s a s' => s.step a = some s') s) (p : Nat) :
    (s.tables p).Bounded := by
  refine Reach.invariant (fun s => ∀ p, (s.tables p).Bounded) ?_ ?_ reached p
  · intro s start p
    rw [start.1]
    exact ⟨by decide, nofun⟩
  · exact fun _ _ _ bounded run => step_bounded run bounded

end RegionRun

/-- In every state of every history, a mapping that may be anywhere fails for lack of addresses only
if there is no gap in the window, exactly when one of the gaps, if there are any, begins at
`next_base` or above. -/
theorem search_complete_iff (s : RegionRun)
    (reached : Reach RegionRun.Start (fun s a s' => s.step a = some s') s) (p : Nat)
    (args : MmapArgs) (anywhere : args.fixed = false ∨ args.hint = 0)
    (word : args.length < 2 ^ 32) :
    ((s.vm p).chooseVa args = none →
      ¬ ∃ c, mmapBase ≤ c ∧ (s.tables p).Gap ((args.length + 4095) / 4096) c) ↔
    ((∃ c, mmapBase ≤ c ∧ (s.tables p).Gap ((args.length + 4095) / 4096) c) →
      ∃ c, (s.tables p).nextBase ≤ c ∧ (s.tables p).Gap ((args.length + 4095) / 4096) c) := by
  have bounded := RegionRun.reach_bounded reached p
  have start : (s.tables p).nextBase < addressPages := Nat.lt_of_le_of_lt bounded.next (by decide)
  have search : (s.vm p).chooseVa args =
      (s.tables p).findFreeVa (pagesOf args.length) addressPages (s.tables p).nextBase := by
    have notFixed : ¬ (args.fixed && args.hint ≠ 0) = true := by
      rcases anywhere with free | zero
      · simp [free]
      · simp [zero]
    exact if_neg notFixed
  by_cases wraps : 2 ^ 32 ≤ args.length + 4095
  · -- the length is rounded up to more than the window
    have none : ¬ ∃ c, mmapBase ≤ c ∧ (s.tables p).Gap ((args.length + 4095) / 4096) c := by
      rintro ⟨c, -, fits, -⟩
      unfold mmapLimit at fits
      omega
    exact iff_of_true (fun _ => none) fun gap => absurd gap none
  have pages : pagesOf args.length = (args.length + 4095) / 4096 := by
    unfold pagesOf
    rw [Nat.mod_eq_of_lt (Nat.not_le.mp wraps)]
  rw [search, findFreeVa_none_iff bounded (pagesOf_lt _) start (Nat.le_add_left ..), pages]
  exact not_imp_not

/-- Two pages are left of the first mapping, and one page is mapped in the middle of the window:
a mapping of `0x40000` pages finds no address, and there is none. -/
theorem search_complete_iff_halves :
    ∃ s, Reach RegionRun.Start (fun s a s' => RegionRun.step s a = some s') s ∧
      ((s.tables 1).regions 0).used = true ∧ ((s.tables 1).regions 1).used = true ∧
      (s.vm 1).chooseVa (RegionRun.anonymous 0 0x40000000 false) = none ∧
      ¬ ∃ c, mmapBase ≤ c ∧ (s.tables 1).Gap 0x40000 c := by
  obtain ⟨s, reached, ⟨used, low⟩, ⟨used', middle⟩, failed⟩ := Reach.exists_of_run RegionRun.Start
    RegionRun.step (fun _ _ _ move => move)
    (⟨fun _ => rfl, fun _ _ => rfl⟩ : RegionRun.Start .oneProcess)
    [.mmap 1 (RegionRun.anonymous 0 0x3000 false),
      .mmap 1 (RegionRun.anonymous 0x80000000 0x1000 true), .munmap 1 0x40000000 0x1000]
    (fun s => (((s.tables 1).regions 0).used = true ∧ ((s.tables 1).regions 0).base = 0x40001) ∧
      (((s.tables 1).regions 1).used = true ∧ ((s.tables 1).regions 1).base = 0x80000) ∧
      (s.vm 1).chooseVa (RegionRun.anonymous 0 0x40000000 false) = none) (by decide +kernel)
  refine ⟨s, reached, used, used', failed, (search_complete_iff s reached 1
    (RegionRun.anonymous 0 0x40000000 false) (.inl rfl) (by decide)).mpr ?_ failed⟩
  rintro ⟨c, above, gap⟩
  refine ⟨c, ?_, gap⟩
  -- what fits neither before the middle page nor behind it
  have fits := gap.1
  have first := gap.2 0 (by decide) used
  have second := gap.2 1 (by decide) used'
  unfold mmapBase mmapLimit at *
  simp only [RegionRun.anonymous] at fits first second
  omega

/-- The last page of the window is mapped with `MAP_FIXED` and unmapped. No region is left, and no
page can be mapped any more. -/
theorem window_lost :
    ∃ s, Reach RegionRun.Start (fun s a s' => RegionRun.step s a = some s') s ∧
      (s.vm 1).chooseVa (RegionRun.anonymous 0 0x1000 false) = none ∧
      (∀ i < maxRegions, ((s.tables 1).regions i).used = false) ∧
      ∃ c, mmapBase ≤ c ∧ (s.tables 1).Gap 1 c := by
  obtain ⟨s, reached, failed, unused⟩ := Reach.exists_of_run RegionRun.Start
    RegionRun.step (fun _ _ _ move => move)
      (⟨fun _ => rfl, fun _ _ => rfl⟩ : RegionRun.Start .oneProcess)
    [.mmap 1 (RegionRun.anonymous 0xBEFFF000 0x1000 true), .munmap 1 0xBEFFF000 0x1000]
    (fun s => (s.vm 1).chooseVa (RegionRun.anonymous 0 0x1000 false) = none ∧
      ∀ i < maxRegions, ((s.tables 1).regions i).used = false) (by decide +kernel)
  refine ⟨s, reached, failed, unused, mmapBase, le_refl _, by decide, ?_⟩
  intro i few used
  rw [unused i few] at used
  cases used

/-! ## The search in bytes

A table may hold any bounds: the search itself rounds its candidates up to pages. -/

structure ByteRegion where
  used : Bool
  base : Nat
  length : Nat

structure ByteTable where
  regions : Nat → ByteRegion
  nextBase : Nat

def userStackTop : Nat := 0xC0000000

/-- `(a + PAGE_SIZE - 1) & !(PAGE_SIZE - 1)`. -/
def pageRound (a : Nat) : Nat := (a + 4095) % 2 ^ 32 / 4096 * 4096

def ByteRegion.clashes (candidate length : Nat) (r : ByteRegion) : Bool :=
  r.used && candidate < (r.base + r.length) % 2 ^ 32 && (candidate + length) % 2 ^ 32 > r.base

/-- The loop of `find_free_va`; `none` if it takes more rounds. -/
def ByteTable.search (t : ByteTable) (length : Nat) : Nat → Nat → Option Nat
  | 0, _ => none
  | rounds + 1, candidate =>
    if (candidate + length) % 2 ^ 32 > 4096 * mmapLimit ∨
        (candidate + length) % 2 ^ 32 < candidate then some 0
    else
      match (List.range maxRegions).find? fun i => (t.regions i).clashes candidate length with
      | none => some candidate
      | some i =>
        t.search length rounds (pageRound (((t.regions i).base + (t.regions i).length) % 2 ^ 32))

def ByteTable.findFreeVa (t : ByteTable) (length rounds : Nat) : Option Nat :=
  t.search length rounds (pageRound t.nextBase)

/-- `length` bytes at `va` lie in the window and apart from the used regions. -/
structure ByteTable.Free (t : ByteTable) (length va : Nat) : Prop where
  aligned : va % 4096 = 0
  above : 4096 * mmapBase ≤ va
  below : va + length ≤ 4096 * mmapLimit
  apart : ∀ i < maxRegions, (t.regions i).used = true →
    (t.regions i).base + (t.regions i).length ≤ va ∨ va + length ≤ (t.regions i).base

/-- The used regions end at or below the top of the user stack. -/
def ByteTable.Ends (t : ByteTable) : Prop := ∀ i < maxRegions, (t.regions i).used = true →
  (t.regions i).base + (t.regions i).length ≤ userStackTop

theorem pageRound_spec {a : Nat} (top : a ≤ userStackTop) :
    a ≤ pageRound a ∧ pageRound a ≤ userStackTop ∧ pageRound a % 4096 = 0 := by
  unfold pageRound userStackTop at *
  omega

theorem clashes_iff {r : ByteRegion} {length : Nat}
    (ends : r.used = true → r.base + r.length ≤ userStackTop)
    (fits : c + length ≤ 4096 * mmapLimit) : r.clashes c length = true ↔
      r.used = true ∧ c < r.base + r.length ∧ r.base < c + length := by
  have noWrap : (c + length) % 2 ^ 32 = c + length :=
    mod_eq_of_lt (lt_of_le_of_lt fits (by decide))
  simp only [ByteRegion.clashes, Bool.and_eq_true, decide_eq_true_eq, and_assoc, noWrap, gt_iff_lt]
  refine and_congr_right fun used => ?_
  rw [mod_eq_of_lt (lt_of_le_of_lt (ends used) (by decide))]

/-- By induction on the rounds: a clash moves the candidate behind the end of a region. -/
theorem search_sound {b : ByteTable} {length rounds : Nat} (ends : b.Ends) (word : length < 2 ^ 32)
    (aligned : c % 4096 = 0) (above : 4096 * mmapBase ≤ c) (top : c ≤ userStackTop)
    (enough : 2 ^ 32 ≤ c + rounds) :
    ∃ va, (∀ more, b.search length (more + rounds) c = some va) ∧ (va ≠ 0 → b.Free length va) := by
  induction rounds generalizing c with
  | zero =>
    unfold userStackTop at top
    omega
  | succ rounds ih =>
    simp only [ByteTable.search]
    by_cases outside : (c + length) % 2 ^ 32 > 4096 * mmapLimit ∨ (c + length) % 2 ^ 32 < c
    · simp only [if_pos outside]
      exact ⟨0, fun _ => rfl, fun nonzero => absurd rfl nonzero⟩
    have fits : c + length ≤ 4096 * mmapLimit := by
      unfold mmapLimit userStackTop at *
      omega
    simp only [if_neg outside]
    cases found : (List.range maxRegions).find? fun i => (b.regions i).clashes c length with
    | none =>
      refine ⟨c, fun _ => rfl, fun _ => ⟨aligned, above, fits, ?_⟩⟩
      intro i few used
      have clear : ¬ (c < _ ∧ _) := fun meets => List.find?_eq_none.mp found i
        (List.mem_range.mpr few) ((clashes_iff (ends i few) fits).mpr ⟨used, meets⟩)
      omega
    | some i =>
      have few := List.mem_range.mp (List.mem_of_find?_eq_some found)
      have clash := List.find?_some (p := fun i => (b.regions i).clashes c length) found
      obtain ⟨used, meets, -⟩ := (clashes_iff (ends i few) fits).mp clash
      have bound := ends i few used
      obtain ⟨up, low, next⟩ := pageRound_spec bound
      dsimp only
      rw [mod_eq_of_lt (lt_of_le_of_lt bound (by decide))]
      exact ih next (by omega) low (by omega)

/-- `find_free_va` returns, and what it finds is free. -/
theorem find_free_va_sound (t : ByteTable) (length : Nat) (base : 4096 * mmapBase ≤ t.nextBase)
    (top : t.nextBase ≤ userStackTop) (ends : t.Ends) (word : length < 2 ^ 32) :
    ∃ va, (∀ rounds, 2 ^ 32 ≤ rounds → t.findFreeVa length rounds = some va) ∧
      (va ≠ 0 → t.Free length va) := by
  obtain ⟨up, low, aligned⟩ := pageRound_spec top
  obtain ⟨va, found, free⟩ := search_sound ends word aligned (le_trans base up) low
    (Nat.le_add_left (2 ^ 32) _)
  refine ⟨va, fun rounds enough => ?_, free⟩
  obtain ⟨more, rfl⟩ := Nat.exists_eq_add_of_le' enough
  exact found more

/-- Two regions, the second of which ends inside a page. -/
def twoRegions : ByteTable where
  regions i := if i = 3 then ⟨true, 0x40003000, 0x1800⟩ else ⟨i = 5, 0x40000000, 0x2000⟩
  nextBase := 0x40000001

/-- Both candidates before the result clash, and the second restart is rounded up to a page. -/
theorem find_free_va_sound_clashes :
    (∀ rounds, 2 ^ 32 ≤ rounds → twoRegions.findFreeVa 0x2000 rounds = some 0x40005000) ∧
      twoRegions.Free 0x2000 0x40005000 := by
  have ends : twoRegions.Ends := by
    intro i few used
    have all : ∀ i < maxRegions, (twoRegions.regions i).base + (twoRegions.regions i).length ≤
        userStackTop := by decide +kernel
    exact all i few
  obtain ⟨va, found, free⟩ := find_free_va_sound twoRegions 0x2000 (by decide) (by decide) ends
    (by decide)
  have third : twoRegions.findFreeVa 0x2000 (2 ^ 32) = some 0x40005000 := by decide +kernel
  have same : va = 0x40005000 := Option.some.inj ((found _ (le_refl _)).symm.trans third)
  rw [same] at found free
  exact ⟨found, free (by decide)⟩

/-! ## Pages and bytes -/

def MmapTable.bytes (t : MmapTable) : ByteTable where
  regions i := ⟨(t.regions i).used, 4096 * (t.regions i).base, 4096 * (t.regions i).pages⟩
  nextBase := 4096 * t.nextBase

theorem mod_pages (v : Nat) : 4096 * v % 2 ^ 32 = 4096 * wrapPage v :=
  Nat.mul_mod_mul_left 4096 v (2 ^ 20)

theorem pageRound_pages {v : Nat} (small : v < addressPages) : pageRound (4096 * v) = 4096 * v := by
  unfold pageRound addressPages at *
  omega

theorem clashes_bytes (r : Region) :
    ByteRegion.clashes (4096 * c) (4096 * n) ⟨r.used, 4096 * r.base, 4096 * r.pages⟩ =
      clashTest c n r := by
  simp only [ByteRegion.clashes, clashTest, ← Nat.mul_add, mod_pages, gt_iff_lt,
    Nat.mul_lt_mul_left (show 0 < 4096 by decide)]

/-- The search in pages is the search in bytes over tables that keep to pages, which `do_mmap` and
`do_munmap` do; 0 stands for a failure. -/
theorem search_bytes {fuel : Nat} (positive : 0 < c) :
    (t.bytes.search (4096 * n) fuel (4096 * c)).filter (· ≠ 0) =
      (t.findFreeVa n fuel c).map (4096 * ·) := by
  induction fuel generalizing c with
  | zero => rfl
  | succ fuel ih =>
    have same : (fun i => (t.bytes.regions i).clashes (4096 * c) (4096 * n)) =
        fun i => clashTest c n (t.regions i) := funext fun i => clashes_bytes (t.regions i)
    rw [ByteTable.search, MmapTable.findFreeVa, same, ← Nat.mul_add, mod_pages]
    simp only [gt_iff_lt, Nat.mul_lt_mul_left (show 0 < 4096 by decide)]
    split
    · rfl
    rw [MmapTable.find]
    cases found : (List.range maxRegions).find? fun i => clashTest c n (t.regions i) with
    | none => simp [positive.ne']
    | some i =>
      have clash := List.find?_some (p := fun i => clashTest c n (t.regions i)) found
      have next : c < wrapPage ((t.regions i).base + (t.regions i).pages) := by
        simp only [clashTest, Bool.and_eq_true, decide_eq_true_eq] at clash
        exact clash.1.2
      have restart : pageRound (((t.bytes.regions i).base + (t.bytes.regions i).length) % 2 ^ 32) =
          4096 * wrapPage ((t.regions i).base + (t.regions i).pages) := by
        dsimp only [MmapTable.bytes]
        rw [← Nat.mul_add, mod_pages]
        exact pageRound_pages (Nat.mod_lt _ (by decide))
      dsimp only
      rw [restart]
      exact ih (lt_trans positive next)

end CactKernel.Memory
