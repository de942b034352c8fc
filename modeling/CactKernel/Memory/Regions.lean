import CactKernel.Memory.MmapChains
import CactKernel.Lib.Reach

/-! # The region tables over whole histories

Any number of processes call `do_mmap` and `do_munmap`, and `mmap_table_clone` copies
a table at a fork; between the calls the memory may change in any way. Beside the
tables `mapped` keeps the pages whose last successful call was a `do_mmap`. -/

set_option autoImplicit false

namespace CactKernel.Memory

open Lib List Option Function Nat Or Reach

/-- Some region covers the page, as `mmap_find_region` looks it up. -/
def MmapTable.covered (t : MmapTable) (v : Nat) : Bool := (t.find fun r => r.covers v).isSome

def userStartPage : Nat := 0x8000

structure RegionRun where
  mem : Mem
  objects : Nat → Memfd
  tables : Nat → MmapTable
  mapped : Nat → Nat → Bool

namespace RegionRun

inductive Action
  | mmap (p : Nat) (args : MmapArgs)
  | munmap (p addr length : Nat)
  | clone (p c : Nat)
  /-- Whatever else happens to the memory. -/
  | memory (mem : Mem) (objects : Nat → Memfd)

def vm (s : RegionRun) (p : Nat) : Vm := ⟨s.mem, s.objects, s.tables p⟩

def put (s : RegionRun) (p : Nat) (x : Vm) (mapped : Nat → Bool) : RegionRun :=
  ⟨x.mem, x.objects, update s.tables p x.table, update s.mapped p mapped⟩

/-- `n` pages from `a` on, around the top of the address space. -/
def touches (a n u : Nat) : Bool := decide (∃ i, i < n ∧ wrapPage (a + i) = u)

def step (s : RegionRun) : Action → Option RegionRun
  | .mmap p args =>
    let r := (s.vm p).doMmap (p, 0) args
    let mapped := match r.1 with
      | none => s.mapped p
      | some v => fun u => s.mapped p u || touches v (pagesOf args.length) u
    some (s.put p r.2 mapped)
  | .munmap p addr length =>
    if 2 ^ 32 ≤ addr then none
    else
      let r := (s.vm p).doMunmap (p, 0) addr length
      let mapped := if r.1 then
          fun u => s.mapped p u && !touches (addr / pageSize) (pagesOf length) u
        else s.mapped p
      some (s.put p r.2 mapped)
  | .clone p c =>
    let x := (s.vm p).mmapTableClone (p, 0) (c, 0)
    some (s.put c { x with table := cloneTable (s.tables p) (s.tables c) } (s.mapped p))
  | .memory mem objects => some { s with mem, objects }

/-- All tables are empty. -/
def Start (s : RegionRun) : Prop := (∀ p, s.tables p = {}) ∧ ∀ p v, s.mapped p v = false

/-- The calls that the table can follow: no length that is rounded up to zero, no `MAP_FIXED` below
the user range or over a region, no unmapping out of the middle of a region or around the top of
the address space. -/
def Clean (s : RegionRun) : Action → Prop
  | .mmap p args => (pagesOf args.length = 0 → args.length = 0) ∧
      (args.fixed = true → args.hint ≠ 0 → userStartPage ≤ args.hint / pageSize ∧
        ∀ u, args.hint / pageSize ≤ u → u < args.hint / pageSize + pagesOf args.length →
          (s.tables p).covered u = false)
  | .munmap p addr length => (pagesOf length = 0 → length = 0) ∧
      addr / pageSize + pagesOf length < addressPages ∧
      ∀ i < maxRegions, ((s.tables p).regions i).used = true →
        ¬ (((s.tables p).regions i).base < addr / pageSize ∧
          addr / pageSize + pagesOf length <
            ((s.tables p).regions i).base + ((s.tables p).regions i).pages)
  | _ => True

end RegionRun

/-! ## One table -/

/-- The table keeps to the user range, and its regions to themselves. -/
structure MmapTable.Lawful (t : MmapTable) : Prop where
  few : ∀ i, (t.regions i).used = true → i < maxRegions
  next : mmapBase ≤ t.nextBase ∧ t.nextBase ≤ totalPages
  inside : ∀ i, (t.regions i).used = true → userStartPage ≤ (t.regions i).base ∧
    0 < (t.regions i).pages ∧ (t.regions i).base + (t.regions i).pages ≤ totalPages
  disjoint : ∀ i j, i ≠ j → (t.regions i).used = true → (t.regions j).used = true →
    (t.regions i).base + (t.regions i).pages ≤ (t.regions j).base ∨
      (t.regions j).base + (t.regions j).pages ≤ (t.regions i).base

variable {t : MmapTable} {x : Vm} {d : DirId}

theorem MmapTable.Lawful.bounded (lawful : t.Lawful) : t.Bounded := by
  refine ⟨lawful.next.2, ?_⟩
  intro i used
  exact end_lt_addressPages (lawful.inside i used).2.2

variable {i a n v : Nat} {args : MmapArgs}

theorem MmapTable.Lawful.covered_iff (lawful : t.Lawful) (v : Nat) :
    t.covered v = true ↔ t.Covers v := by
  unfold covered
  constructor
  · intro found
    obtain ⟨i, here⟩ := isSome_iff_exists.mp found
    exact ⟨i, find_test here⟩
  · rintro ⟨i, covers⟩
    have small := lawful.few i (covers_iff.mp covers).1
    by_contra notFound
    have failed := find_none (not_isSome_iff_eq_none.mp notFound) i small
    rw [covers] at failed
    cases failed

theorem touches_iff {u : Nat} (noWrap : a + n ≤ addressPages) :
    RegionRun.touches a n u = true ↔ a ≤ u ∧ u < a + n := by
  unfold RegionRun.touches
  rw [decide_eq_true_eq]
  constructor
  · rintro ⟨i, small, rfl⟩
    rw [wrapPage_of_lt (by omega)]
    omega
  · rintro ⟨low, high⟩
    refine ⟨u - a, by omega, ?_⟩
    rw [wrapPage_of_lt (by omega)]
    omega

/-! ## munmap -/

theorem doMunmap_nothing {addr length : Nat} (lawful : x.table.Lawful)
    (nonzero : pagesOf length = 0 → length = 0)
    (noWrap : addr / 4096 + pagesOf length < addressPages)
    (nothing : ¬ x.table.Covers (addr / 4096)) : (x.doMunmap d addr length).2.table = x.table := by
  unfold Vm.doMunmap
  split
  · rfl
  rename_i proper
  dsimp only
  split
  · rfl
  rename_i i found
  refine absurd ⟨i, ?_⟩ nothing
  obtain ⟨used, low, high⟩ := find_unmap lawful.bounded found noWrap
  have some : 0 < pagesOf length := pos_of_ne_zero fun zero => proper (inl (nonzero zero))
  exact covers_iff.mpr ⟨used, low, by omega⟩

/-- The pages taken out of a region at its start or its end. -/
structure Shrinks (r r' : Region) (a n : Nat) : Prop where
  base : r'.used = true → r.base ≤ r'.base
  pages : r'.used = true → 0 < r'.pages ∧ r'.base + r'.pages ≤ r.base + r.pages
  covers : ∀ u, r'.covers u = true ↔ r.covers u = true ∧ ¬ (a ≤ u ∧ u < a + n)

variable {r : Region}

theorem Region.shrinks (used : r.used = true) (some : 0 < n) (low : r.base ≤ a)
    (high : a + n ≤ r.base + r.pages) (atEdge : ¬ (r.base < a ∧ a + n < r.base + r.pages)) :
    Shrinks r (r.shrunk a n) a n := by
  unfold Region.shrunk
  split
  · rename_i whole
    refine ⟨nofun, nofun, ?_⟩
    intro u
    rw [covers_iff, covers_iff]
    simp only [Bool.false_eq_true, false_and, false_iff]
    omega
  rename_i notWhole
  split
  · rename_i start
    refine ⟨?_, ?_, ?_⟩
    · intro _
      dsimp only
      omega
    · intro _
      dsimp only
      omega
    · intro u
      rw [covers_iff, covers_iff]
      simp only [used, true_and]
      omega
  · rename_i notStart
    refine ⟨?_, ?_, ?_⟩
    · intro _
      exact le_refl _
    · intro _
      dsimp only
      omega
    · intro u
      rw [covers_iff, covers_iff]
      simp only [used, true_and]
      omega

/-- Every region of the new table lies in the one it was. -/
theorem MmapTable.Lawful.within {t' : MmapTable} (lawful : t.Lawful)
    (next : t'.nextBase = t.nextBase)
    (within : ∀ j, (t'.regions j).used = true → (t.regions j).used = true ∧
      (t.regions j).base ≤ (t'.regions j).base ∧ 0 < (t'.regions j).pages ∧
      (t'.regions j).base + (t'.regions j).pages ≤ (t.regions j).base + (t.regions j).pages) :
    t'.Lawful := by
  refine ⟨?_, next ▸ lawful.next, ?_, ?_⟩
  · intro j now
    exact lawful.few j (within j now).1
  · intro j now
    obtain ⟨before, low, some, high⟩ := within j now
    have inside := lawful.inside j before
    exact ⟨by omega, some, by omega⟩
  · intro j k different nowJ nowK
    obtain ⟨beforeJ, lowJ, -, highJ⟩ := within j nowJ
    obtain ⟨beforeK, lowK, -, highK⟩ := within k nowK
    have apart := lawful.disjoint j k different beforeJ beforeK
    omega

theorem MmapTable.Lawful.shrink (lawful : t.Lawful) (used : (t.regions i).used = true)
    (shrinks : Shrinks (t.regions i) r a n) : (t.set i r).Lawful := by
  refine lawful.within rfl ((forall_update_iff t.regions fun j r' => r'.used = true →
    (t.regions j).used = true ∧ (t.regions j).base ≤ r'.base ∧ 0 < r'.pages ∧
      r'.base + r'.pages ≤ (t.regions j).base + (t.regions j).pages).mpr ⟨?_, ?_⟩)
  · intro now
    exact ⟨used, shrinks.base now, shrinks.pages now⟩
  · intro j _ now
    exact ⟨now, le_refl _, (lawful.inside j now).2.1, le_refl _⟩

theorem MmapTable.Lawful.shrink_covers {u : Nat} (lawful : t.Lawful)
    (used : (t.regions i).used = true) (low : (t.regions i).base ≤ a)
    (high : a + n ≤ (t.regions i).base + (t.regions i).pages)
    (shrinks : Shrinks (t.regions i) r a n) :
    (t.set i r).Covers u ↔ t.Covers u ∧ ¬ (a ≤ u ∧ u < a + n) := by
  refine (exists_update_iff t.regions fun _ r => r.covers u = true).trans ?_
  rw [shrinks.covers u]
  constructor
  · rintro (⟨before, outside⟩ | ⟨j, here, covers⟩)
    · exact ⟨⟨i, before⟩, outside⟩
    · refine ⟨⟨j, covers⟩, ?_⟩
      obtain ⟨usedJ, lowJ, highJ⟩ := covers_iff.mp covers
      have apart := lawful.disjoint j i here usedJ used
      omega
  · rintro ⟨⟨j, covers⟩, outside⟩
    by_cases here : j = i
    · exact .inl ⟨here ▸ covers, outside⟩
    · exact .inr ⟨j, here, covers⟩

/-! ## mmap -/

theorem findFreeVa_free {fuel c : Nat} (lawful : t.Lawful) (small : n < addressPages)
    (candidate : c < addressPages) (found : t.findFreeVa n fuel c = some v) :
    c ≤ v ∧ ∀ u, v ≤ u → u < v + n → ¬ t.Covers u := by
  obtain ⟨above, -, apart⟩ := (findFreeVa_spec lawful.bounded small candidate).1 v found
  refine ⟨above, ?_⟩
  rintro u low high ⟨i, covers⟩
  obtain ⟨used, _, _⟩ := covers_iff.mp covers
  have free := apart i (lawful.few i used) used
  omega

theorem chooseVa_free (lawful : x.table.Lawful)
    (fixed : args.fixed = true → args.hint ≠ 0 → userStartPage ≤ args.hint / pageSize ∧
      ∀ u, args.hint / pageSize ≤ u → u < args.hint / pageSize + pagesOf args.length →
        x.table.covered u = false)
    (chosen : x.chooseVa args = some v) :
    userStartPage ≤ v ∧ ∀ u, v ≤ u → u < v + pagesOf args.length → ¬ x.table.Covers u := by
  unfold Vm.chooseVa at chosen
  split at chosen
  · rename_i isFixed
    simp only [Bool.and_eq_true, decide_eq_true_eq] at isFixed
    obtain ⟨above, free⟩ := fixed isFixed.1 isFixed.2
    split at chosen
    · cases chosen
    split at chosen
    · cases chosen
    cases chosen
    refine ⟨above, fun u low high covers => ?_⟩
    have taken := (lawful.covered_iff u).mpr covers
    rw [free u low high] at taken
    cases taken
  · have start : x.table.nextBase < addressPages := end_lt_addressPages lawful.next.2
    obtain ⟨above, free⟩ := findFreeVa_free lawful (pagesOf_lt _) start chosen
    refine ⟨?_, free⟩
    calc userStartPage ≤ mmapBase := by decide
      _ ≤ x.table.nextBase := lawful.next.1
      _ ≤ v := above

theorem mapFile_kept {fd : Fd} {offset : Nat} {fl : Flags} {x' : Vm} (lawful : x.table.Lawful)
    (low : v + n ≤ totalPages) (nothing : ∀ u, v ≤ u → u < v + n → ¬ x.table.Covers u)
    (run : x.mapFile d fd v n offset fl = (false, x')) : x'.table = x.table := by
  unfold Vm.mapFile at run
  split at run
  · cases run
  rename_i g broken
  have small := readFilePages_broken broken
  have fits : v + g.installed < addressPages := low_lt_addressPages (by omega)
  obtain ⟨start, size⟩ := span_pages fits
  cases run
  apply doMunmap_nothing (x := { x with mem := g.mem }) lawful
  · rw [size]
    intro zero
    rw [zero]
    rfl
  · rw [size, start]
    exact fits
  · rw [start]
    exact nothing v (le_refl _) (by omega)

theorem MmapTable.Lawful.add {slot object : Nat} {isShared : Bool} (lawful : t.Lawful)
    (free : t.find (fun r => !r.used) = some slot) (above : userStartPage ≤ v) (some : 0 < n)
    (low : v + n ≤ totalPages) (nothing : ∀ u, v ≤ u → u < v + n → ¬ t.Covers u) :
    MmapTable.Lawful { t.set slot ⟨true, v, n, isShared, object⟩ with
      nextBase := max t.nextBase (v + n) } := by
  have apart : ∀ j, (t.regions j).used = true →
      (t.regions j).base + (t.regions j).pages ≤ v ∨ v + n ≤ (t.regions j).base := by
    intro j used
    by_contra overlap
    have inside := lawful.inside j used
    refine nothing (max v (t.regions j).base) (by omega) (by omega) ⟨j, ?_⟩
    exact covers_iff.mpr ⟨used, by omega, by omega⟩
  refine ⟨?_, ?_, ?_, ?_⟩
  · exact (forall_update_iff t.regions fun j r => r.used = true → j < maxRegions).mpr
      ⟨fun _ => find_lt free, fun j _ => lawful.few j⟩
  · exact ⟨Nat.le_trans lawful.next.1 (Nat.le_max_left ..), Nat.max_le.mpr ⟨lawful.next.2, low⟩⟩
  · exact (forall_update_iff t.regions fun _ r => r.used = true →
      userStartPage ≤ r.base ∧ 0 < r.pages ∧ r.base + r.pages ≤ totalPages).mpr
      ⟨fun _ => ⟨above, some, low⟩, fun j _ => lawful.inside j⟩
  · intro j k different usedJ usedK
    by_cases hereJ : j = slot
    · have hereK : k ≠ slot := fun same => different (hereJ.trans same.symm)
      simp only [MmapTable.set, hereJ, update_self, update_of_ne hereK] at usedK ⊢
      exact (apart k usedK).symm
    simp only [MmapTable.set, update_of_ne hereJ] at usedJ ⊢
    by_cases hereK : k = slot
    · simp only [hereK, update_self]
      exact apart j usedJ
    · simp only [MmapTable.set, update_of_ne hereK] at usedK ⊢
      exact lawful.disjoint j k different usedJ usedK

/-! ## All tables -/

namespace RegionRun

/-- The table covers the pages that are mapped. -/
structure Follows (t : MmapTable) (mapped : Nat → Bool) : Prop where
  lawful : t.Lawful
  pages : ∀ v, t.Covers v ↔ mapped v = true

variable {s s' : RegionRun}

theorem start_follows (start : s.Start) (p : Nat) : Follows (s.tables p) (s.mapped p) := by
  rw [start.1 p]
  refine ⟨⟨nofun, ⟨le_refl _, by decide⟩, nofun, fun _ _ _ => nofun⟩, ?_⟩
  intro v
  rw [start.2 p v]
  constructor
  · rintro ⟨i, covers⟩
    exact absurd (covers_iff.mp covers).1 (by simp)
  · intro never
    cases never

theorem mmap_follows {p : Nat} {args : MmapArgs} (follows : Follows (s.tables p) (s.mapped p))
    (clean : s.Clean (.mmap p args)) (run : s.step (.mmap p args) = some s') :
    Follows (s'.tables p) (s'.mapped p) := by
  have lawful : (s.vm p).table.Lawful := follows.lawful
  have free : ∀ v, (s.vm p).chooseVa args = some v → userStartPage ≤ v ∧
      ∀ u, v ≤ u → u < v + pagesOf args.length → ¬ (s.vm p).table.Covers u :=
    fun v chosen => chooseVa_free lawful clean.2 chosen
  cases run
  simp only [put, update_self]
  rcases doMmap_outcome (d := (p, 0)) (P := (· = (s.vm p).table)) _ rfl fun v fd y chosen mapped =>
      mapFile_kept lawful (chooseVa_low lawful.bounded chosen) (free v chosen).2 mapped with
    ⟨failed, same⟩ | ⟨v, slot, object, done, nonzero, chosen, found, result⟩
  · rw [failed, same]
    exact follows
  obtain ⟨above, nothing⟩ := free v chosen
  have low := chooseVa_low lawful.bounded chosen
  have some : 0 < pagesOf args.length := pos_of_ne_zero fun zero => nonzero (clean.1 zero)
  rw [done, result]
  refine ⟨lawful.add found above some low nothing, ?_⟩
  intro u
  have pages := set_covers (r := ⟨true, v, pagesOf args.length, args.shared, object⟩) (u := u)
    (find_unused found)
  rw [Bool.or_eq_true, touches_iff (le_of_lt (end_lt_addressPages low)), ← follows.pages u]
  refine Iff.trans pages (or_congr Iff.rfl ?_)
  rw [covers_iff]
  simp

theorem munmap_follows {p addr length : Nat} (follows : Follows (s.tables p) (s.mapped p))
    (clean : s.Clean (.munmap p addr length)) (run : s.step (.munmap p addr length) = some s') :
    Follows (s'.tables p) (s'.mapped p) := by
  obtain ⟨nonzero, noWrap, atEdge⟩ := clean
  have lawful : (s.vm p).table.Lawful := follows.lawful
  rw [step] at run
  split at run
  · cases run
  cases run
  simp only [put, update_self]
  rcases doMunmap_outcome (s.vm p) (p, 0) addr length with
    ⟨failed, same⟩ | ⟨done, proper, i, found, result⟩
  · rw [failed, same, if_neg (by simp)]
    exact follows
  obtain ⟨used, low, high⟩ := find_unmap lawful.bounded found noWrap
  have some : 0 < pagesOf length := pos_of_ne_zero fun zero => proper (nonzero zero)
  have shrinks := Region.shrinks used some low high (atEdge i (find_lt found) used)
  rw [done, result, if_pos rfl]
  refine ⟨lawful.shrink used shrinks, ?_⟩
  intro u
  rw [lawful.shrink_covers used low high shrinks, Bool.and_eq_true, ← follows.pages u,
    Bool.not_eq_true', ← Bool.not_eq_true, touches_iff (le_of_lt noWrap)]
  exact Iff.rfl

theorem clone_follows {p c : Nat} (follows : Follows (s.tables p) (s.mapped p))
    (run : s.step (.clone p c) = some s') : Follows (s'.tables c) (s'.mapped c) := by
  cases some.inj run
  simp only [put, update_self]
  -- a used slot of the copy is the slot of the parent
  have same : ∀ i, ((cloneTable (s.tables p) (s.tables c)).regions i).used = true →
      ((s.tables p).regions i).used = true ∧
        (cloneTable (s.tables p) (s.tables c)).regions i = (s.tables p).regions i := by
    intro i used
    unfold cloneTable at used ⊢
    dsimp only at used ⊢
    split at used
    · rename_i before
      rw [if_pos before]
      exact ⟨before, rfl⟩
    · cases used
  refine ⟨follows.lawful.within rfl ?_, ?_⟩
  · intro i used
    obtain ⟨before, copied⟩ := same i used
    rw [copied]
    exact ⟨before, le_refl _, (follows.lawful.inside i before).2.1, le_refl _⟩
  · intro v
    rw [← follows.pages v]
    constructor
    · rintro ⟨i, covers⟩
      rw [(same i (covers_iff.mp covers).1).2] at covers
      exact ⟨i, covers⟩
    · rintro ⟨i, covers⟩
      refine ⟨i, ?_⟩
      unfold cloneTable
      dsimp only
      rw [if_pos (covers_iff.mp covers).1]
      exact covers

theorem step_follows {a : Action} (clean : s.Clean a) (run : s.step a = some s')
    (follows : ∀ p, Follows (s.tables p) (s.mapped p)) (q : Nat) :
    Follows (s'.tables q) (s'.mapped q) := by
  cases a with
  | mmap p args =>
    by_cases here : q = p
    · subst here
      exact mmap_follows (follows q) clean run
    cases run
    simp only [put, update_of_ne here]
    exact follows q
  | munmap p addr length =>
    by_cases here : q = p
    · subst here
      exact munmap_follows (follows q) clean run
    rw [step] at run
    split at run
    · cases run
    cases run
    simp only [put, update_of_ne here]
    exact follows q
  | clone p c =>
    by_cases here : q = c
    · subst here
      exact clone_follows (follows p) run
    cases some.inj run
    simp only [put, update_of_ne here]
    exact follows q
  | memory mem objects =>
    cases run
    exact follows q

end RegionRun

/-- In every history of clean calls the regions of every process are not empty, lie in the user
range and are disjoint, and a page of the mmap window is covered exactly if the last successful
call for it was a mapping. -/
theorem regions_follow_calls (s : RegionRun)
    (reached : Reach RegionRun.Start
      (restrict RegionRun.Clean fun s a s' => s.step a = some s') s) (p : Nat) :
    (∀ i < maxRegions, ((s.tables p).regions i).used = true →
      userStartPage ≤ ((s.tables p).regions i).base ∧ 0 < ((s.tables p).regions i).pages ∧
      ((s.tables p).regions i).base + ((s.tables p).regions i).pages ≤ totalPages) ∧
    (∀ i j, i < maxRegions → j < maxRegions → i ≠ j → ((s.tables p).regions i).used = true →
      ((s.tables p).regions j).used = true → ∀ v, ((s.tables p).regions i).covers v = true →
        ((s.tables p).regions j).covers v = false) ∧
    (∀ v, mmapBase ≤ v → v < mmapLimit → ((s.tables p).covered v = s.mapped p v)) := by
  have follows : ∀ q, RegionRun.Follows (s.tables q) (s.mapped q) := by
    refine invariant (fun s => ∀ q, RegionRun.Follows (s.tables q) (s.mapped q)) ?_ ?_ reached
    · exact fun s start => RegionRun.start_follows start
    · rintro before a after follows ⟨clean, run⟩
      exact RegionRun.step_follows clean run follows
  have lawful := (follows p).lawful
  refine ⟨fun i _ used => lawful.inside i used, ?_, ?_⟩
  · intro i j _ _ different usedI usedJ v covers
    by_contra both
    have covers' : ((s.tables p).regions j).covers v = true := by simpa using both
    obtain ⟨-, lowI, highI⟩ := covers_iff.mp covers
    obtain ⟨-, lowJ, highJ⟩ := covers_iff.mp covers'
    have apart := lawful.disjoint i j different usedI usedJ
    omega
  · intro v _ _
    rw [Bool.eq_iff_iff, lawful.covered_iff, (follows p).pages]

namespace RegionRun

/-- One process with an empty directory, and sixteen frames. -/
def oneProcess : RegionRun where
  mem := ((boot [⟨0x3000000, 0x10000, 1⟩] fun _ _ => 0).mem.vmmCreateAddressSpace (1, 0)).2
  objects _ := {}
  tables _ := {}
  mapped _ _ := false

def anonymous (hint length : Nat) (fixed : Bool) : MmapArgs :=
  { hint, length, fixed, priv := true, anon := true }

end RegionRun

/-- Three pages are mapped, and the first of them is unmapped. -/
theorem regions_follow_calls_one_mapping : ∃ s : RegionRun, s.mapped 1 0x40001 = true ∧
    (s.tables 1).covered 0x40001 = true ∧ (s.tables 1).covered 0x40000 = false := by
  obtain ⟨s, mapped, above, last⟩ := exists_of_any
    (RegionRun.oneProcess.step (.mmap 1 (RegionRun.anonymous 0 0x3000 false)))
    (fun s => (∀ i < maxRegions, ((s.tables 1).regions i).used = true →
      0x40000 ≤ ((s.tables 1).regions i).base) ∧ (s.step (.munmap 1 0x40000000 0x1000)).any
        (fun s => decide (s.mapped 1 0x40000 = false ∧ s.mapped 1 0x40001 = true)) = true)
    (by decide +kernel)
  obtain ⟨s', unmapped, gone, there⟩ := exists_of_any _ _ last
  have follows := (regions_follow_calls s' (next (a := .munmap 1 0x40000000 0x1000)
    (next (a := .mmap 1 (RegionRun.anonymous 0 0x3000 false))
      (start ⟨fun _ => rfl, fun _ _ => rfl⟩) ⟨⟨by decide, nofun⟩, mapped⟩)
    ⟨⟨by decide, by decide, fun i few used low => ?_⟩, unmapped⟩) 1).2.2
  · exact ⟨s', there, (follows 0x40001 (by decide) (by decide)).trans there,
      (follows 0x40000 (by decide) (by decide)).trans gone⟩
  · exact absurd low.1 (not_lt.mpr (above i few used))

/-- Three pages are mapped. Unmapping the second takes the third out of the table as well; a
`MAP_FIXED` mapping of the second is a region over a region. -/
theorem regions_lost_and_doubled :
    (∃ s, Reach RegionRun.Start (fun s a s' => RegionRun.step s a = some s') s ∧
      s.mapped 1 0x40002 = true ∧ (s.tables 1).covered 0x40002 = false) ∧
    ∃ s, Reach RegionRun.Start (fun s a s' => RegionRun.step s a = some s') s ∧
      ((s.tables 1).regions 0).covers 0x40001 = true ∧
      ((s.tables 1).regions 1).covers 0x40001 = true := by
  have start : RegionRun.Start RegionRun.oneProcess := ⟨fun _ => rfl, fun _ _ => rfl⟩
  constructor
  · exact exists_of_run _ _ (fun _ _ _ move => move) start
      [.mmap 1 (RegionRun.anonymous 0 0x3000 false), .munmap 1 0x40001000 0x1000] _
      (by decide +kernel)
  · exact exists_of_run _ _ (fun _ _ _ move => move) start
      [.mmap 1 (RegionRun.anonymous 0 0x3000 false),
        .mmap 1 (RegionRun.anonymous 0x40001000 0x1000 true)] _ (by decide +kernel)

end CactKernel.Memory
