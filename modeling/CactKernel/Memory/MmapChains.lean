import CactKernel.Memory.PinChains
import CactKernel.Lib.Tally

/-! # The mapping calls as chains

`do_munmap`, `do_mmap` and the copies of a region table. The region table decides
which pages count as shared, so these chains also change that ghost. -/

set_option autoImplicit false

namespace CactKernel.Memory

open Lib Mem Function Nat Or Steps Micro

variable {sc : Scope} {x : Vm} {d src dst : DirId} {segments : Nat → Segment}
  {kstacks : Nat → Option Nat} {shared : DirId → Nat → Prop}

/-! ## Region tables -/

def MmapTable.Shared (t : MmapTable) (v : Nat) : Prop :=
  ∃ i, (t.regions i).shared = true ∧ (t.regions i).covers v = true

def MmapTable.Private (t : MmapTable) (v : Nat) : Prop :=
  ∃ i, (t.regions i).shared = false ∧ (t.regions i).covers v = true

def MmapTable.Covers (t : MmapTable) (v : Nat) : Prop := ∃ i, (t.regions i).covers v = true

/-- Regions end below the top of the address space. -/
structure MmapTable.Bounded (t : MmapTable) : Prop where
  next : t.nextBase ≤ totalPages
  regions : ∀ i, (t.regions i).used = true → (t.regions i).base + (t.regions i).pages < addressPages

/-- Unmapping `n` pages at `a` would cut a shared region and leave its end mapped. -/
def MmapTable.Severed (t : MmapTable) (a n : Nat) : Prop :=
  ∃ i, (t.regions i).used = true ∧ (t.regions i).shared = true ∧ (t.regions i).base < a ∧
    a < (t.regions i).base + (t.regions i).pages ∧
    a + n < (t.regions i).base + (t.regions i).pages

variable {r : Region} {v i addr length n h u : Nat} {w : World} {m : Mem} {fl : Flags}
  {g : Progress} {fd : Fd} {args : MmapArgs}

theorem covers_iff : r.covers v = true ↔ r.used = true ∧ r.base ≤ v ∧ v < r.base + r.pages := by
  simp [Region.covers, and_assoc]

variable {t : MmapTable}

theorem find_test {test : Region → Bool} (found : t.find test = some i) :
    test (t.regions i) = true :=
  List.find?_some (p := fun i => test (t.regions i)) found

theorem find_unused (free : t.find (fun r => !r.used) = some i) : (t.regions i).used = false := by
  simpa using find_test free

theorem set_covers (free : (t.regions i).used = false) :
    (t.set i r).Covers u ↔ t.Covers u ∨ r.covers u = true :=
  exists_update_iff_or (P := fun r : Region => r.covers u = true) fun covered =>
    absurd (covers_iff.mp covered).1 (by simp [free])

theorem set_shared (free : (t.regions i).used = false) :
    (t.set i r).Shared u ↔ t.Shared u ∨ r.shared = true ∧ r.covers u = true :=
  exists_update_iff_or (P := fun r : Region => r.shared = true ∧ r.covers u = true) fun covered =>
    absurd (covers_iff.mp covered.2).1 (by simp [free])

theorem MmapTable.Bounded.set (bounded : t.Bounded)
    (fits : r.used = true → r.base + r.pages < addressPages) : (t.set i r).Bounded :=
  ⟨bounded.next, (forall_update_iff t.regions
    (p := fun _ r => r.used = true → r.base + r.pages < addressPages)).mpr
      ⟨fits, fun j _ => bounded.regions j⟩⟩

theorem wrapPage_of_lt (small : v < addressPages) : wrapPage v = v :=
  mod_eq_of_lt small

theorem low_lt_addressPages (low : v < totalPages) : v < addressPages := by
  unfold totalPages at low
  unfold addressPages
  omega

theorem end_lt_addressPages (low : v ≤ totalPages) : v < addressPages := by
  unfold totalPages at low
  unfold addressPages
  omega

theorem reshare_steps (d : DirId) (pages : Nat → Prop)
    (leaving : (∀ v, w.shared d v → ¬ pages v → w.mem.Bare d v) ∨ sc.kinds .orphan) :
    Steps sc w { w with shared := update w.shared d pages } := by
  refine single ?_ (reshare d pages)
  refine ⟨nofun, ?_, nofun, nofun, nofun⟩
  by_cases plain : ∀ v e, w.shared d v → ¬ pages v → w.mem.ownPte d v = some e →
      e.holds = true → e.flags.rw = false
  · exact inl (if_pos plain)
  rcases leaving with bare | orphan
  · refine absurd ?_ plain
    intro v e before after own holds
    rw [bare v before after e own] at holds
    cases holds
  · refine inr ?_
    simp only [plain]
    exact orphan

theorem reshare_world {before after : Nat → Prop}
    (leaving : (∀ v, before v → ¬ after v → x.mem.Bare d v) ∨ sc.kinds .orphan) :
    Steps sc (x.world segments kstacks (update shared d before))
      (x.world segments kstacks (update shared d after)) := by
  have reshared : Steps sc (x.world segments kstacks (update shared d before)) _ :=
    reshare_steps d after (by simpa only [Vm.world, update_self] using leaving)
  simp only [Vm.world, update_idem] at reshared
  exact reshared

/-! ## munmap -/

theorem shrinkRegion_steps (i a n : Nat) : Steps sc (x.world segments kstacks shared)
    ((x.shrinkRegion i a n).world segments kstacks shared) := by
  have released : ∀ t h, Steps sc (x.world segments kstacks shared)
      ((Vm.memfdMapDec ⟨x.mem, x.objects, t⟩ h).world segments kstacks shared) :=
    fun t h => memfdMapDec_steps (x := ⟨x.mem, x.objects, t⟩)
  unfold Vm.shrinkRegion
  dsimp only
  split
  · split
    · exact released _ _
    · exact refl
  · split
    · exact refl
    · exact refl

theorem doMunmap_steps (tidy : Tidy x.mem)
    (pages : ∀ i < pagesOf length, sc.pages (wrapPage (addr / 4096 + i))) :
    Steps sc (x.world segments kstacks shared)
      ((x.doMunmap d addr length).2.world segments kstacks shared) := by
  unfold Vm.doMunmap
  split
  · exact refl
  dsimp only
  split
  · exact refl
  have unmapped := (unmapPages_steps (w := x.world segments kstacks shared) (d := d) tidy pages).1
  split
  · rename_i m run
    rw [show (x.world segments kstacks shared).mem = x.mem from rfl, run] at unmapped
    exact unmapped
  · rename_i m run
    rw [show (x.world segments kstacks shared).mem = x.mem from rfl, run] at unmapped
    exact unmapped.trans (shrinkRegion_steps (x := { x with mem := m }) _ _ _)

theorem Bare.congr {m' : Mem} (bare : m.Bare d v) (dirs : m'.dirs = m.dirs) : m'.Bare d v := by
  intro e own
  exact bare e (by simpa [ownPte, dirs] using own)

theorem freePages_dirs (frames : Nat → Nat) (n : Nat) (m : Mem) :
    (countTo (fun j m => m.freePage (frames j)) n m).dirs = m.dirs := by
  induction n with
  | zero => rfl
  | succ n ih => exact ih

theorem memfdMapDec_dirs (h : Nat) : (x.memfdMapDec h).mem.dirs = x.mem.dirs := by
  unfold Vm.memfdMapDec maybeFreeLocked
  split
  · rfl
  split
  · rfl
  · exact freePages_dirs _ _ _

theorem memfdMapDec_table (h : Nat) : (x.memfdMapDec h).table = x.table := by
  unfold Vm.memfdMapDec
  split
  · rfl
  · rfl

theorem shrinkRegion_dirs (i a n : Nat) : (x.shrinkRegion i a n).mem.dirs = x.mem.dirs := by
  unfold Vm.shrinkRegion
  dsimp only
  split
  · split
    · exact memfdMapDec_dirs (x := { x with table := _ }) _
    · rfl
  · split
    · rfl
    · rfl

/-- What is left of a region. -/
def Region.shrunk (r : Region) (a n : Nat) : Region :=
  if a = r.base ∧ r.pages ≤ n then { r with used := false, object := 0 }
  else if a = r.base then { r with base := r.base + n, pages := r.pages - n }
  else { r with pages := a - r.base }

theorem shrinkRegion_table (i a n : Nat) :
    (x.shrinkRegion i a n).table = x.table.set i ((x.table.regions i).shrunk a n) := by
  unfold Vm.shrinkRegion Region.shrunk
  dsimp only
  split
  · split
    · rw [memfdMapDec_table]
    · rfl
  · split
    · rfl
    · rfl

theorem shrinkRegion_leaves {a : Nat} (test : Vm.unmapTest a n (x.table.regions i) = true)
    (intact : ¬ x.table.Severed a n) (before : x.table.Shared v)
    (after : ¬ (x.shrinkRegion i a n).table.Shared v) : ∃ k < n, v = a + k := by
  obtain ⟨j, isShared, covered⟩ := before
  rw [shrinkRegion_table] at after
  obtain ⟨gone, elsewhere⟩ := not_or.mp (mt (exists_update_iff x.table.regions
    (p := fun _ r => r.shared = true ∧ r.covers v = true)).mpr after)
  have here : j = i := by
    by_contra other
    exact elsewhere ⟨j, other, isShared, covered⟩
  subst here
  obtain ⟨used, fromBase, toEnd⟩ := covers_iff.mp covered
  by_contra outside
  push Not at outside
  unfold Region.shrunk at gone
  split at gone
  · rename_i whole
    exact outside (v - a) (by omega) (by omega)
  split at gone
  · rename_i notWhole start
    refine gone ⟨isShared, covers_iff.mpr ⟨used, ?_, ?_⟩⟩
    · change (x.table.regions j).base + n ≤ v
      by_contra early
      exact outside (v - a) (by omega) (by omega)
    · change v < (x.table.regions j).base + n + ((x.table.regions j).pages - n)
      have fits : n < (x.table.regions j).pages := by
        by_contra large
        exact notWhole ⟨start, Nat.le_of_not_lt large⟩
      omega
  · rename_i notStart
    have later : (x.table.regions j).base ≤ a := by
      unfold Vm.unmapTest at test
      simp only [Bool.and_eq_true, Bool.or_eq_true, decide_eq_true_eq] at test
      omega
    refine gone ⟨isShared, covers_iff.mpr ⟨used, fromBase, ?_⟩⟩
    change v < (x.table.regions j).base + (a - (x.table.regions j).base)
    by_contra late
    have reaches : a + n ≤ v := by
      by_contra inside
      exact outside (v - a) (by omega) (by omega)
    exact intact ⟨j, used, isShared, by omega, by omega, by omega⟩

theorem doMunmap_reshare (tidy : Tidy x.mem)
    (pages : ∀ i < pagesOf length, sc.pages (wrapPage (addr / 4096 + i)))
    (orphan : x.table.Severed (addr / 4096) (pagesOf length) → sc.kinds .orphan) :
    Steps sc (x.world segments kstacks (update shared d x.table.Shared))
      ((x.doMunmap d addr length).2.world segments kstacks
        (update shared d (x.doMunmap d addr length).2.table.Shared)) := by
  have unmapped : Steps sc (x.world segments kstacks (update shared d x.table.Shared))
      ((x.doMunmap d addr length).2.world segments kstacks
        (update shared d x.table.Shared)) := doMunmap_steps tidy pages
  have leaving : (∀ v, x.table.Shared v → ¬ (x.doMunmap d addr length).2.table.Shared v →
      (x.doMunmap d addr length).2.mem.Bare d v) ∨ sc.kinds .orphan := by
    by_cases severed : x.table.Severed (addr / 4096) (pagesOf length)
    · exact inr (orphan severed)
    refine inl ?_
    intro v before after
    have tidy' := unmapped.tidy tidy
    revert after tidy'
    unfold Vm.doMunmap
    split
    · exact fun after _ => absurd before after
    dsimp only
    split
    · exact fun after _ => absurd before after
    rename_i i found
    have bare := (unmapPages_steps (w := x.world segments kstacks shared) (d := d) tidy pages).2
    split
    · exact fun after _ => absurd before after
    rename_i m run
    rw [show (x.world segments kstacks shared).mem = x.mem from rfl, run] at bare
    intro after tidy'
    obtain ⟨k, near, rfl⟩ := shrinkRegion_leaves (x := { x with mem := m }) (find_test found)
      severed before after
    intro e own
    have low : addr / 4096 + k < totalPages := Tidy.low_of_own tidy' own
    have cleared := Bare.congr (bare rfl k near) (shrinkRegion_dirs (x := { x with mem := m })
      i (addr / 4096) (pagesOf length))
    rw [wrapPage_of_lt (low_lt_addressPages low)] at cleared
    exact cleared e own
  exact unmapped.trans (reshare_world leaving)

theorem doMunmap_outcome (x : Vm) (d : DirId) (addr length : Nat) :
    ((x.doMunmap d addr length).1 = false ∧ (x.doMunmap d addr length).2.table = x.table) ∨
      (x.doMunmap d addr length).1 = true ∧ length ≠ 0 ∧
        ∃ i, x.table.find (Vm.unmapTest (addr / 4096) (pagesOf length)) = some i ∧
          (x.doMunmap d addr length).2.table =
            x.table.set i ((x.table.regions i).shrunk (addr / 4096) (pagesOf length)) := by
  unfold Vm.doMunmap
  split
  · exact inl ⟨rfl, rfl⟩
  rename_i proper
  dsimp only
  split
  · exact inl ⟨rfl, rfl⟩
  rename_i i found
  split
  · exact inl ⟨rfl, rfl⟩
  · refine inr ⟨rfl, fun zero => proper (inl zero), i, found, ?_⟩
    exact shrinkRegion_table i _ _

theorem doMunmap_bounded (bounded : x.table.Bounded) (address : addr < 2 ^ 32) :
    (x.doMunmap d addr length).2.table.Bounded := by
  rcases doMunmap_outcome x d addr length with ⟨-, same⟩ | ⟨-, -, i, found, result⟩
  · rw [same]
    exact bounded
  rw [result]
  refine bounded.set ?_
  unfold Region.shrunk
  split
  · exact nofun
  rename_i notWhole
  split
  · rename_i start
    intro used
    have before := bounded.regions i used
    dsimp only
    omega
  · intro used
    have test := find_test found
    unfold Vm.unmapTest at test
    simp only [Bool.and_eq_true, Bool.or_eq_true, decide_eq_true_eq] at test
    unfold addressPages
    dsimp only
    omega

theorem bounded_clone {src : MmapTable} (dst : MmapTable) (bounded : src.Bounded) :
    (cloneTable src dst).Bounded := by
  refine ⟨bounded.next, fun i used => ?_⟩
  simp only [cloneTable] at used ⊢
  split at used
  · rename_i inUse
    rw [if_pos inUse]
    exact bounded.regions i used
  · cases used

theorem find_unmap {t : MmapTable} {a : Nat} (bounded : t.Bounded)
    (found : t.find (Vm.unmapTest a n) = some i) (noWrap : a + n < addressPages) :
    (t.regions i).used = true ∧ (t.regions i).base ≤ a ∧
      a + n ≤ (t.regions i).base + (t.regions i).pages := by
  have test := find_test found
  unfold Vm.unmapTest at test
  simp only [Bool.and_eq_true, Bool.or_eq_true, decide_eq_true_eq] at test
  rw [wrapPage_of_lt noWrap, wrapPage_of_lt (bounded.regions i test.1)] at test
  exact ⟨test.1, by omega, by omega⟩

theorem doMunmap_covers (bounded : x.table.Bounded)
    (noWrap : addr / 4096 + pagesOf length < addressPages)
    (covered : (x.doMunmap d addr length).2.table.Covers v) : x.table.Covers v := by
  rcases doMunmap_outcome x d addr length with ⟨-, same⟩ | ⟨-, -, i, found, result⟩
  · exact same ▸ covered
  rw [result] at covered
  rcases (exists_update_iff x.table.regions (p := fun _ r => r.covers v = true)).mp covered with
    covers | ⟨j, -, covers⟩
  · refine ⟨i, ?_⟩
    have inside := find_unmap bounded found noWrap
    unfold Region.shrunk at covers
    split at covers
    · exact absurd (covers_iff.mp covers).1 (by simp)
    split at covers
    · obtain ⟨used, low, high⟩ := covers_iff.mp covers
      dsimp only at used low high
      exact covers_iff.mpr ⟨used, by omega, by omega⟩
    · obtain ⟨used, low, high⟩ := covers_iff.mp covers
      dsimp only at used low high
      exact covers_iff.mpr ⟨used, by omega, by omega⟩
  · exact ⟨j, covers⟩

/-! ## Shared objects -/

theorem growLocked_valid {m' : Mem} {o o' : Memfd} {need : Nat} {done : Bool}
    (run : growLocked m o need = (done, m', o')) : o'.valid = o.valid := by
  unfold growLocked at run
  split at run
  · cases run
    rfl
  split at run
  · cases run
    rfl
  split at run
  · cases run
    rfl
  · cases run
    rfl

variable {x' : Vm}

theorem memfdGrowTo_valid {needed : Nat} (run : x.memfdGrowTo h needed = (true, x')) :
    (x'.objects h).valid = true := by
  unfold Vm.memfdGrowTo at run
  split at run
  · cases run
  rename_i handle
  have valid := handleValid_valid (x := x) (h := h) (by simpa using handle)
  split at run
  · rename_i m o grown
    cases run
    simp only [update_self]
    rw [growLocked_valid grown, valid]
  · cases run

theorem memfdGrowTo_table {needed : Nat} : (x.memfdGrowTo h needed).2.table = x.table := by
  unfold Vm.memfdGrowTo
  split
  · rfl
  split
  · rfl
  · rfl

theorem memfdMapInc_table : (x.memfdMapInc h).2.table = x.table := by
  unfold Vm.memfdMapInc
  split
  · rfl
  · rfl

/-- The shared pages with the first `i` pages at `v` added. -/
def addPages (pages : Nat → Prop) (v i : Nat) : Nat → Prop := fun u => pages u ∨ v ≤ u ∧ u < v + i

theorem addPages_zero (pages : Nat → Prop) (v : Nat) : addPages pages v 0 = pages := by
  funext u
  refine propext ⟨?_, inl⟩
  rintro (before | ⟨low, high⟩)
  · exact before
  · omega

/-- The first `i` pages of an object are mapped. -/
structure Installed (sc : Scope) (w : World) (d : DirId) (v i : Nat) (g : Progress) : Prop where
  count : g.installed = i
  steps : Steps sc w
    { w with
      mem := g.mem
      shared := update w.shared d (addPages (w.shared d) v i) }

theorem Installed.next {o : Memfd} {first : Nat} (tidy : Tidy w.mem)
    (pinned : ∀ k, w.pins (.object h k) = o.frame k) (valid : o.valid = true)
    (user : fl.user = true) (low : v + i < totalPages) (page : sc.pages (v + i))
    (installed : Installed sc w d v i g) :
    if (installObjectPage d o v first fl i g).1 then
      Installed sc w d v (i + 1) (installObjectPage d o v first fl i g).2
    else Installed sc w d v i (installObjectPage d o v first fl i g).2 := by
  unfold installObjectPage objectPage
  by_cases inside : first + i < o.numPages
  · simp only [inside, if_true]
    have grow : ∀ m, Steps sc
        ⟨m, w.pins, update w.shared d (addPages (w.shared d) v i), w.hand⟩
        ⟨m, w.pins, update w.shared d (addPages (w.shared d) v (i + 1)), w.hand⟩ := by
      intro m
      have reshared : Steps sc
          ⟨m, w.pins, update w.shared d (addPages (w.shared d) v i), w.hand⟩ _ :=
        reshare_steps d (addPages (w.shared d) v (i + 1)) (inl ?_)
      · simp only [update_idem] at reshared
        exact reshared
      · intro u before after
        simp only [update_self] at before
        refine absurd ?_ after
        rcases before with old | ⟨fromStart, toEnd⟩
        · exact inl old
        · exact inr ⟨fromStart, by omega⟩
    rcases vmmMap_prepare (installed.steps.tidy tidy) d low page (o.pages (first + i)) fl with
      failed | ⟨m, now, steps, own, result, -⟩
    · split
      · -- the identity map happens to show the frame
        rw [if_pos rfl]
        refine ⟨by rw [installed.count], ?_⟩
        exact (installed.steps.trans failed).trans ((grow _).trans (Steps.plain (bump _)))
      · rw [if_neg (by simp)]
        exact ⟨installed.count, installed.steps.trans failed⟩
    · have shown : (g.mem.vmmMap d (v + i) (o.pages (first + i)) fl).translate d (v + i) =
          some (o.pages (first + i)) := by
        have entry : (g.mem.vmmMap d (v + i) (o.pages (first + i)) fl).pteAt d (v + i) =
            ⟨o.pages (first + i), mapFlags (v + i) (o.pages (first + i)) fl⟩ := by
          rw [result, pteAt_setPte own, if_pos (And.intro rfl rfl)]
        unfold Mem.translate
        rw [entry]
        rfl
      rw [if_pos shown, if_pos rfl]
      refine ⟨by rw [installed.count], ?_⟩
      rw [result]
      refine (installed.steps.trans steps).trans ((grow m).trans (Steps.page page ?_))
      refine share (o := .pin (.object h (first + i))) own ?_ nofun nofun ?_
        (holds_mapFlags user) ?_
      · simp [World.held, pinned, Memfd.frame, valid, inside]
      · rintro ⟨d', v', e, same, -⟩
        cases same
      · intro _
        simp only [update_self]
        exact inr ⟨le_add_right v i, by omega⟩
  · simp only [inside, if_false]
    exact installed

theorem clearPages_steps (tidy : Tidy w.mem) (low : v + n ≤ totalPages)
    (pages : ∀ i < n, sc.pages (v + i)) :
    Steps sc w { w with mem := countTo (fun i m => m.clearPte d (v + i)) n w.mem } ∧
      ∀ i < n, (countTo (fun i m => m.clearPte d (v + i)) n w.mem).Bare d (v + i) := by
  refine loop (fun i m => ∀ j < i, m.Bare d (v + j)) tidy nofun ?_
  intro i m small tidy' before
  refine ⟨clearPte_steps (w := { w with mem := m }) tidy' (by omega) (pages i small), ?_⟩
  intro j near
  rcases Nat.lt_succ_iff_lt_or_eq.mp near with earlier | same
  · exact Bare.clearPte (inl (before j earlier))
  · exact Bare.clearPte (inr (by rw [same]))

theorem undoObject_steps (tidy : Tidy x.mem)
    (installed : Installed sc (x.world segments kstacks shared) d v i g) (low : v + i ≤ totalPages)
    (pages : ∀ j < i, sc.pages (v + j)) :
    Steps sc (x.world segments kstacks shared)
      ((Vm.memfdMapDec { x with mem := countTo (fun i m => m.clearPte d (v + i)) g.installed g.mem }
        h).world segments kstacks shared) := by
  rw [installed.count]
  have cleared := clearPages_steps (installed.steps.tidy tidy) (d := d) low pages
  have released : Steps sc (Vm.world
      { x with mem := countTo (fun i m => m.clearPte d (v + i)) i g.mem } segments kstacks
      (update shared d (addPages (shared d) v i))) _ := memfdMapDec_steps (h := h)
  have leaving : ∀ u, addPages (shared d) v i u → ¬ shared d u → (Vm.memfdMapDec
      { x with mem := countTo (fun i m => m.clearPte d (v + i)) i g.mem } h).mem.Bare d u := by
    intro u before after
    rcases before with old | ⟨fromStart, toEnd⟩
    · exact absurd old after
    · obtain ⟨j, rfl⟩ := Nat.exists_eq_add_of_le fromStart
      exact Bare.congr (cleared.2 j (by omega)) (memfdMapDec_dirs h)
  have back := released.trans (reshare_world (inl leaving))
  rw [update_eq_self] at back
  exact (installed.steps.trans cleared.1).trans back

theorem mapObject_steps {offset : Nat} {done : Bool} (tidy : Tidy x.mem) (user : fl.user = true)
    (low : v + n ≤ totalPages) (pages : ∀ i < n, sc.pages (v + i))
    (run : x.mapObject d h v n offset fl = (done, x')) :
    Steps sc (x.world segments kstacks shared) (x'.world segments kstacks
      (if done then update shared d (addPages (shared d) v n) else shared)) := by
  unfold Vm.mapObject at run
  split at run
  · cases run
    exact refl
  have counted : (x.memfdMapInc h).2.world segments kstacks shared =
      x.world segments kstacks shared := memfdMapInc_world
  split at run
  · rename_i y refused
    rw [refused] at counted
    cases run
    rw [← counted]
    exact refl
  rename_i y held
  rw [held] at counted
  have grown : Steps sc (y.world segments kstacks shared)
      ((y.memfdGrowTo h ((offset + n * pageSize) % 2 ^ 32)).2.world segments kstacks shared) :=
    memfdGrowTo_steps
  rw [counted] at grown
  split at run
  · rename_i z failed
    rw [failed] at grown
    cases run
    exact grown.trans memfdMapDec_steps
  rename_i z ready
  have valid := memfdGrowTo_valid ready
  rw [ready] at grown
  have tidyZ : Tidy z.mem := grown.tidy tidy
  have start : Installed sc (z.world segments kstacks shared) d v 0 ⟨z.mem, 0⟩ := by
    refine ⟨rfl, ?_⟩
    rw [addPages_zero, update_eq_self]
    exact refl
  have whole := countWhile_invariant
    (f := installObjectPage d (z.objects h) v (offset / pageSize) fl) (n := n)
    (Installed sc (z.world segments kstacks shared) d v)
    (Installed sc (z.world segments kstacks shared) d v) start fun i g small installed =>
      installed.next tidyZ (fun k => rfl) valid user (by omega) (pages i small)
  split at run
  · rename_i g full
    rw [full] at whole
    cases run
    exact grown.trans whole.steps
  · rename_i g broken
    rw [broken] at whole
    obtain ⟨i, small, installed⟩ := whole
    cases run
    have undone := undoObject_steps (h := h) tidyZ installed (by omega)
      fun j near => pages j (lt_trans near small)
    exact grown.trans undone

/-! ## Files -/

/-- The first `i` pages of a file mapping are read. -/
structure ReadIn (sc : Scope) (w : World) (i : Nat) (g : Progress) : Prop where
  count : g.installed = i
  steps : Steps sc w { w with mem := g.mem }

theorem ReadIn.next {read : Option (Nat → Nat → UInt8)} {offset : Nat} {write : Bool}
    (tidy : Tidy w.mem) (low : v + i < totalPages) (page : sc.pages (v + i))
    (done : ReadIn sc w i g) :
    if (readFilePage d read v offset (userFlags write) i g).1 then
      ReadIn sc w (i + 1) (readFilePage d read v offset (userFlags write) i g).2
    else ReadIn sc w i (readFilePage d read v offset (userFlags write) i g).2 := by
  unfold readFilePage
  cases run : g.mem.kalloc with
  | mk r m =>
    cases r with
    | none =>
      exact ⟨done.count, done.steps.trans (plain (starve run))⟩
    | some f =>
      rw [if_pos rfl]
      refine ⟨by rw [done.count], done.steps.trans ?_⟩
      exact mapFresh_steps (w := { w with mem := g.mem }) (done.steps.tidy tidy) run d page
        (fun high => absurd low (not_lt.mpr high)) _ write

theorem span_pages (fits : v + n < addressPages) :
    v * pageSize / 4096 = v ∧ pagesOf (n * pageSize) = n := by
  unfold addressPages at fits
  unfold pagesOf pageSize
  omega

theorem pagesOf_lt (length : Nat) : pagesOf length < addressPages := by
  unfold pagesOf addressPages
  omega

theorem mapFile_steps {offset : Nat} {write : Bool} {done : Bool} (tidy : Tidy x.mem)
    (low : v + n ≤ totalPages) (pages : ∀ i < n, sc.pages (v + i))
    (orphan : ∀ k < n, x.table.Severed v k → sc.kinds .orphan)
    (run : x.mapFile d fd v n offset (userFlags write) = (done, x')) :
    Steps sc (x.world segments kstacks (update shared d x.table.Shared))
      (x'.world segments kstacks (update shared d x'.table.Shared)) := by
  have whole := countWhile_invariant (f := readFilePage d fd.read v offset (userFlags write))
    (n := n) (ReadIn sc (x.world segments kstacks (update shared d x.table.Shared)))
    (ReadIn sc (x.world segments kstacks (update shared d x.table.Shared)))
    (s := ⟨x.mem, 0⟩) ⟨rfl, refl⟩ fun i g small done => done.next tidy (by omega) (pages i small)
  unfold Vm.mapFile at run
  split at run
  · rename_i g full
    rw [full] at whole
    cases run
    exact whole.steps
  rename_i g broken
  rw [broken] at whole
  obtain ⟨i, small, done⟩ := whole
  cases run
  refine done.steps.trans ?_
  rw [done.count]
  have fits : v + i < addressPages := low_lt_addressPages (by omega)
  obtain ⟨start, size⟩ := span_pages fits
  refine doMunmap_reshare (x := { x with mem := g.mem }) (done.steps.tidy tidy) ?_ ?_
  · rw [size, start]
    intro j near
    rw [wrapPage_of_lt (by omega)]
    exact pages j (lt_trans near small)
  · rw [size, start]
    exact orphan i small

/-! ## mmap -/

/-- `n` pages at `c` lie between the used regions and below the limit. -/
def MmapTable.Gap (t : MmapTable) (n c : Nat) : Prop :=
  c + n ≤ mmapLimit ∧ ∀ i < maxRegions, (t.regions i).used = true →
    (t.regions i).base + (t.regions i).pages ≤ c ∨ c + n ≤ (t.regions i).base

theorem find_none {test : Region → Bool} (failed : t.find test = none) :
    ∀ i < maxRegions, test (t.regions i) = false := by
  intro i small
  have all := List.find?_eq_none.mp failed i (List.mem_range.mpr small)
  simpa using all

theorem find_lt {test : Region → Bool} (found : t.find test = some i) : i < maxRegions :=
  List.mem_range.mp (List.mem_of_find?_eq_some found)

theorem clashTest_iff {c : Nat} (bound : r.base + r.pages < addressPages)
    (noWrap : c + n < addressPages) (used : r.used = true) :
    clashTest c n r = false ↔ r.base + r.pages ≤ c ∨ c + n ≤ r.base := by
  simp [clashTest, used, wrapPage_of_lt bound, wrapPage_of_lt noWrap, imp_iff_not_or]

/-- By induction on the rounds: at a clash every gap above the candidate is above the region. -/
theorem findFreeVa_spec {fuel c : Nat} (bounded : t.Bounded) (small : n < addressPages)
    (candidate : c < addressPages) :
    (∀ v, t.findFreeVa n fuel c = some v → c ≤ v ∧ t.Gap n v) ∧
      (addressPages ≤ c + fuel → t.findFreeVa n fuel c = none → ¬ ∃ g, c ≤ g ∧ t.Gap n g) := by
  induction fuel generalizing c with
  | zero => exact ⟨nofun, fun enough => by omega⟩
  | succ fuel ih =>
    rw [MmapTable.findFreeVa]
    split
    · refine ⟨nofun, ?_⟩
      rintro _ _ ⟨g, above, fits, -⟩
      unfold wrapPage mmapLimit at *
      omega
    rename_i inside
    have fits : c + n ≤ mmapLimit := by
      unfold wrapPage mmapLimit addressPages at *
      omega
    have noWrap : c + n < addressPages := lt_of_le_of_lt fits (by decide)
    split
    · rename_i free
      refine ⟨?_, nofun⟩
      intro v found
      cases found
      refine ⟨le_refl c, fits, ?_⟩
      intro i few used
      exact (clashTest_iff (bounded.regions i used) noWrap used).mp (find_none free i few)
    rename_i i clash
    have used : (t.regions i).used = true := by
      have test := find_test clash
      simp only [clashTest, Bool.and_eq_true] at test
      exact test.1.1
    have bound := bounded.regions i used
    have meets : ¬ ((t.regions i).base + (t.regions i).pages ≤ c ∨ c + n ≤ (t.regions i).base) := by
      rw [← clashTest_iff bound noWrap used, find_test clash]
      decide
    obtain ⟨gap, full⟩ := ih bound
    rw [wrapPage_of_lt bound]
    refine ⟨fun v found => ?_, fun enough none => ?_⟩
    · have later := gap v found
      exact ⟨by omega, later.2⟩
    · rintro ⟨g, above, free⟩
      have apart := free.2 i (find_lt clash) used
      exact full (by omega) none ⟨g, by omega, free⟩

theorem chooseVa_low (bounded : x.table.Bounded) (chosen : x.chooseVa args = some v) :
    v + pagesOf args.length ≤ totalPages := by
  unfold Vm.chooseVa at chosen
  split at chosen
  · split at chosen
    · cases chosen
    split at chosen
    · cases chosen
    rename_i inside
    cases chosen
    omega
  · have start : x.table.nextBase < addressPages := lt_of_le_of_lt bounded.next (by decide)
    obtain ⟨-, gap, -⟩ := (findFreeVa_spec bounded (pagesOf_lt _) start).1 v chosen
    exact le_trans gap (by decide)

/-- The pages that a call of `mmap` works on. -/
def Vm.mmapPages (x : Vm) (args : MmapArgs) (u : Nat) : Prop :=
  ∃ v, x.chooseVa args = some v ∧ v ≤ u ∧ u < v + pagesOf args.length

/-- What `backing` leaves when the pages could not be mapped. -/
structure MmapTable.Narrowed (t t' : MmapTable) : Prop where
  bounded : t.Bounded → t'.Bounded
  covers : t.Bounded → ∀ u, t'.Covers u → t.Covers u

theorem MmapTable.Narrowed.refl : t.Narrowed t := ⟨id, fun _ _ => id⟩

theorem readFilePages_broken {read : Option (Nat → Nat → UInt8)} {offset : Nat}
    (broken : countWhile (readFilePage d read v offset fl) n ⟨m, 0⟩ = (false, g)) :
    g.installed < n := by
  have whole := countWhile_invariant (f := readFilePage d read v offset fl) (n := n)
    (s := ⟨m, 0⟩) (fun i g => g.installed = i) (fun i g => g.installed = i) rfl
    fun i g _ count => by
      unfold readFilePage
      cases g.mem.kalloc with
      | mk r m =>
        cases r with
        | none => exact count
        | some f => rw [if_pos rfl, count]
  rw [broken] at whole
  obtain ⟨i, small, count⟩ := whole
  rw [count]
  exact small

theorem mapFile_narrowed {offset : Nat} {done : Bool} (low : v + n ≤ totalPages)
    (run : x.mapFile d fd v n offset fl = (done, x')) : x.table.Narrowed x'.table := by
  unfold Vm.mapFile at run
  split at run
  · cases run
    exact MmapTable.Narrowed.refl
  rename_i g broken
  have small := readFilePages_broken broken
  have fits : v + g.installed < addressPages := low_lt_addressPages (by omega)
  obtain ⟨start, size⟩ := span_pages fits
  cases run
  refine ⟨fun bounded => ?_, fun bounded u covered => ?_⟩
  · refine doMunmap_bounded (x := { x with mem := g.mem }) bounded ?_
    unfold addressPages at fits
    unfold pageSize
    omega
  · refine doMunmap_covers (x := { x with mem := g.mem }) bounded ?_ covered
    rw [size, start]
    exact fits

theorem mapFile_table {offset : Nat} (run : x.mapFile d fd v n offset fl = (true, x')) :
    x'.table = x.table := by
  unfold Vm.mapFile at run
  split at run
  · cases run
    rfl
  · cases run

theorem mapObject_table {offset : Nat} {done : Bool}
    (run : x.mapObject d h v n offset fl = (done, x')) : x'.table = x.table := by
  unfold Vm.mapObject at run
  split at run
  · cases run
    rfl
  have counted := memfdMapInc_table (x := x) (h := h)
  split at run
  · rename_i y refused
    rw [refused] at counted
    cases run
    exact counted
  rename_i y held
  rw [held] at counted
  have grown : (y.memfdGrowTo h ((offset + n * pageSize) % 2 ^ 32)).2.table = y.table :=
    memfdGrowTo_table
  split at run
  · rename_i z failed
    rw [failed] at grown
    cases run
    rw [memfdMapDec_table]
    exact grown.trans counted
  · rename_i z ready
    rw [ready] at grown
    split at run
    · cases run
      exact grown.trans counted
    cases run
    rw [memfdMapDec_table]
    exact grown.trans counted

theorem backing_table {r : Option Nat} (run : x.backing d args v = (r, x')) :
    x'.table = x.table ∨ r = none ∧ ∃ fd, x.mapFile d fd v (pagesOf args.length) args.offset
      (userFlags args.write) = (false, x') := by
  unfold Vm.backing at run
  dsimp only at run
  split at run
  · split at run
    · cases run
      exact inl rfl
    · cases run
      exact inl rfl
  split at run
  · cases run
    exact inl rfl
  split at run
  · split at run
    · rename_i y mapped
      cases run
      exact inl (mapObject_table mapped)
    · rename_i y mapped
      cases run
      exact inl (mapObject_table mapped)
  · split at run
    · rename_i y mapped
      cases run
      exact inl (mapFile_table mapped)
    · rename_i y mapped
      cases run
      exact inr ⟨rfl, _, mapped⟩

theorem backing_some {object : Nat} (run : x.backing d args v = (some object, x')) :
    x'.table = x.table :=
  (backing_table run).resolve_right nofun

/-- The new pages count as shared only if the mapping is. -/
def Vm.Adds (x : Vm) (args : MmapArgs) (v : Nat) (pages : Nat → Prop) : Prop :=
  ∀ u, pages u → x.table.Shared u ∨ args.shared = true ∧ v ≤ u ∧ u < v + pagesOf args.length

theorem backing_steps {r : Option Nat} (tidy : Tidy x.mem)
    (low : v + pagesOf args.length ≤ totalPages)
    (pages : ∀ i < pagesOf args.length, sc.pages (v + i))
    (orphan : ∀ k < pagesOf args.length, x.table.Severed v k → sc.kinds .orphan)
    (run : x.backing d args v = (r, x')) :
    (r = none ∧ Steps sc (x.world segments kstacks (update shared d x.table.Shared))
        (x'.world segments kstacks (update shared d x'.table.Shared))) ∨
      ∃ object now, r = some object ∧ x.Adds args v now ∧
        Steps sc (x.world segments kstacks (update shared d x.table.Shared))
          (x'.world segments kstacks (update shared d now)) := by
  have unchanged : x.Adds args v x.table.Shared := fun u before => inl before
  unfold Vm.backing at run
  dsimp only at run
  split at run
  · have mapped : Steps sc (x.world segments kstacks (update shared d x.table.Shared))
        _ := vmmMapZero_steps (d := d) tidy pages
    split at run
    · rename_i m zeroed
      rw [show (x.world segments kstacks _).mem = x.mem from rfl, zeroed] at mapped
      cases run
      exact inr ⟨0, x.table.Shared, rfl, unchanged, mapped⟩
    · rename_i m zeroed
      rw [show (x.world segments kstacks _).mem = x.mem from rfl, zeroed] at mapped
      cases run
      exact inl ⟨rfl, mapped⟩
  · split at run
    · cases run
      exact inl ⟨rfl, refl⟩
    rename_i fd _
    split at run
    · rename_i isShared
      split at run
      · rename_i y mapped
        have steps : Steps sc (x.world segments kstacks (update shared d x.table.Shared))
          _ := mapObject_steps tidy rfl low pages mapped
        simp only [if_true, update_idem, update_self] at steps
        cases run
        refine inr ⟨fd.handle, _, rfl, ?_, steps⟩
        intro u inside
        exact inside.imp id fun range => ⟨(Bool.and_eq_true_iff.mp isShared).1, range⟩
      · rename_i y mapped
        have steps : Steps sc (x.world segments kstacks (update shared d x.table.Shared))
          _ := mapObject_steps tidy rfl low pages mapped
        simp only [Bool.false_eq_true, if_false] at steps
        cases run
        rw [← mapObject_table mapped] at steps
        exact inl ⟨rfl, mapObject_table mapped ▸ steps⟩
    · split at run
      · rename_i y mapped
        have steps : Steps sc (x.world segments kstacks (update shared d x.table.Shared))
          _ := mapFile_steps tidy low pages orphan mapped
        cases run
        refine inr ⟨0, _, rfl, ?_, steps⟩
        rw [mapFile_table mapped]
        exact unchanged
      · rename_i y mapped
        cases run
        exact inl ⟨rfl, mapFile_steps tidy low pages orphan mapped⟩

/-- A file mapping that fails half way would cut a shared region. -/
def Vm.MmapSevers (x : Vm) (args : MmapArgs) : Prop :=
  ∃ v, x.chooseVa args = some v ∧ ∃ k < pagesOf args.length, x.table.Severed v k

theorem doMmap_steps (tidy : Tidy x.mem) (bounded : x.table.Bounded)
    (pages : ∀ u, x.mmapPages args u → sc.pages u) (orphan : x.MmapSevers args → sc.kinds .orphan) :
    Steps sc (x.world segments kstacks (update shared d x.table.Shared))
      ((x.doMmap d args).2.world segments kstacks
        (update shared d (x.doMmap d args).2.table.Shared)) := by
  unfold Vm.doMmap
  split
  · exact refl
  split
  · exact refl
  rename_i v chosen
  have low := chooseVa_low bounded chosen
  split
  · exact refl
  rename_i slot free
  cases run : x.backing d args v with
  | mk r y =>
    have backed : _ ∨ ∃ object now, r = some object ∧ x.Adds args v now ∧
        Steps sc (x.world segments kstacks (update shared d x.table.Shared))
          (y.world segments kstacks (update shared d now)) :=
      backing_steps tidy low (fun i small => pages (v + i) ⟨v, chosen, by omega, by omega⟩)
        (fun k small severed => orphan ⟨v, chosen, k, small, severed⟩) run
    rcases backed with ⟨rfl, steps⟩ | ⟨object, now, rfl, adds, steps⟩
    · exact steps
    have same := backing_some run
    refine steps.trans (reshare_world (x := y) (inl ?_))
    intro u before after
    refine absurd ?_ after
    dsimp only
    rw [same]
    refine (set_shared (find_unused free)).mpr ((adds u before).imp id ?_)
    rintro ⟨isShared, range⟩
    exact ⟨isShared, covers_iff.mpr ⟨rfl, range⟩⟩

theorem doMmap_outcome {P : MmapTable → Prop} (args : MmapArgs) (same : P x.table)
    (undone : ∀ v fd y, x.chooseVa args = some v → x.mapFile d fd v (pagesOf args.length)
      args.offset (userFlags args.write) = (false, y) → P y.table) :
    ((x.doMmap d args).1 = none ∧ P (x.doMmap d args).2.table) ∨
      ∃ v slot object, (x.doMmap d args).1 = some v ∧ args.length ≠ 0 ∧
        x.chooseVa args = some v ∧ x.table.find (fun r => !r.used) = some slot ∧
        (x.doMmap d args).2.table =
          { x.table.set slot ⟨true, v, pagesOf args.length, args.shared, object⟩ with
            nextBase := max x.table.nextBase (v + pagesOf args.length) } := by
  unfold Vm.doMmap
  split
  · exact inl ⟨rfl, same⟩
  rename_i proper
  split
  · exact inl ⟨rfl, same⟩
  rename_i v chosen
  split
  · exact inl ⟨rfl, same⟩
  rename_i slot free
  split
  · rename_i y run
    refine inl ⟨rfl, ?_⟩
    rcases backing_table run with kept | ⟨-, fd, mapped⟩
    · exact kept ▸ same
    · exact undone v fd y chosen mapped
  rename_i object y run
  refine inr ⟨v, slot, object, rfl, fun zero => proper (inl zero), chosen, free, ?_⟩
  rw [backing_some run]

theorem doMmap_bounded (bounded : x.table.Bounded) : (x.doMmap d args).2.table.Bounded := by
  rcases doMmap_outcome (d := d) args bounded fun v fd y chosen mapped =>
      (mapFile_narrowed (chooseVa_low bounded chosen) mapped).bounded bounded with
    ⟨-, failed⟩ | ⟨v, slot, object, -, -, chosen, free, result⟩
  · exact failed
  have low := chooseVa_low bounded chosen
  have regions := (bounded.set (i := slot)
    (r := ⟨true, v, pagesOf args.length, args.shared, object⟩) fun _ =>
      end_lt_addressPages low).regions
  rw [result]
  exact ⟨max_le bounded.next low, regions⟩

theorem doMmap_covers (bounded : x.table.Bounded) (covered : (x.doMmap d args).2.table.Covers u) :
    x.table.Covers u ∨ x.mmapPages args u := by
  rcases doMmap_outcome (d := d) (P := fun t => t.Covers u → x.table.Covers u) args id
      fun v fd y chosen mapped =>
        (mapFile_narrowed (chooseVa_low bounded chosen) mapped).covers bounded u with
    ⟨-, failed⟩ | ⟨v, slot, object, -, -, chosen, free, result⟩
  · exact inl (failed covered)
  rw [result] at covered
  refine ((set_covers (find_unused free)).mp covered).imp id fun inside => ?_
  have range := (covers_iff.mp inside).2
  exact ⟨v, chosen, range⟩

end CactKernel.Memory
