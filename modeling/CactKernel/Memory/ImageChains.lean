import CactKernel.Memory.MmapChains

/-! # Images and region tables as chains

The copy and the teardown of a region table, the ELF loaders and the pages that
every new image gets. -/

set_option autoImplicit false

namespace CactKernel.Memory

open Finset (mem_range range)
open Multiset (add_cons cons_add map_cons map_zero zero_add)
open Lib Mem Nat Or Steps Micro

variable {sc : Scope} {w : World} {x : Vm} {d src dst : DirId} {segments : Nat → Segment}
  {kstacks : Nat → Option Nat} {shared : DirId → Nat → Prop}

/-! ## Region tables -/

theorem cloneRegion_steps {r : Region} {priv : Nat → Prop} (tidy : Tidy w.mem) (apart : src ≠ dst)
    (bounded : r.base + r.pages < addressPages) (used : r.used = true)
    (pages : ∀ u, r.covers u = true → sc.pages u)
    (sharedBoth : r.shared = true → ∀ u, r.covers u = true → w.shared src u ∧ w.shared dst u)
    (isPriv : r.shared = false → ∀ u, r.covers u = true → priv u)
    (mine : ∀ u, priv u → w.mem.Mine src u) :
    Steps sc w { w with mem := w.mem.cloneRegion src dst r } ∧
      ∀ u, priv u → (w.mem.cloneRegion src dst r).Mine src u := by
  refine loop (fun _ m => ∀ u, priv u → m.Mine src u) tidy mine ?_
  intro i m small tidy' mineNow
  have page : wrapPage (r.base + i) = r.base + i := wrapPage_of_lt (by omega)
  have covered : r.covers (r.base + i) = true := covers_iff.mpr ⟨used, by omega, by omega⟩
  rw [page]
  cases isShared : r.shared with
  | true =>
    rw [if_pos rfl]
    have both := sharedBoth isShared _ covered
    have cloned := cloneShared_steps (w := { w with mem := m }) tidy' apart (pages _ covered)
      both.1 both.2
    refine ⟨cloned.1, fun u isPrivate => ?_⟩
    unfold Mem.Mine
    rw [cloned.2 u]
    exact mineNow u isPrivate
  | false =>
    rw [if_neg (by simp)]
    have cloned := clonePrivate_steps (w := { w with mem := m }) tidy' apart (pages _ covered)
      (mineNow _ (isPriv isShared _ covered))
    exact ⟨cloned.1, fun u isPrivate => cloned.2 u (mineNow u isPrivate)⟩

/-- The first `i` regions are copied. -/
structure Cloned (sc : Scope) (x : Vm) (src : DirId) (segments : Nat → Segment)
    (kstacks : Nat → Option Nat) (shared : DirId → Nat → Prop) (y : Vm) : Prop where
  table : y.table = x.table
  mine : ∀ u, x.table.Private u → y.mem.Mine src u
  steps : Steps sc (x.world segments kstacks shared) (y.world segments kstacks shared)

theorem mmapTableClone_steps (tidy : Tidy x.mem) (apart : src ≠ dst) (bounded : x.table.Bounded)
    (pages : ∀ u, x.table.Covers u → sc.pages u)
    (sharedBoth : ∀ u, x.table.Shared u → shared src u ∧ shared dst u)
    (mine : ∀ u, x.table.Private u → x.mem.Mine src u) :
    Steps sc (x.world segments kstacks shared)
      ((x.mmapTableClone src dst).world segments kstacks shared) := by
  suffices whole : Cloned sc x src segments kstacks shared (x.mmapTableClone src dst) from
    whole.steps
  refine countTo_invariant (fun _ y => Cloned sc x src segments kstacks shared y)
    ⟨rfl, mine, refl⟩ ?_
  intro i y _ done
  dsimp only
  split
  · exact done
  rename_i isUsed
  have used : (x.table.regions i).used = true := by
    rw [done.table] at isUsed
    simpa using isUsed
  have ends := bounded.regions i used
  rw [done.table]
  have finish : ∀ z : Vm, z.table = x.table → z.mem = y.mem →
      z.world segments kstacks shared = y.world segments kstacks shared →
      Cloned sc x src segments kstacks shared
        { z with mem := z.mem.cloneRegion src dst (x.table.regions i) } := by
    intro z sameTable sameMem sameWorld
    have tidyZ : Tidy z.mem := sameMem ▸ done.steps.tidy tidy
    have mineZ : ∀ u, x.table.Private u → z.mem.Mine src u := sameMem ▸ done.mine
    have cloned : Steps sc (z.world segments kstacks shared) _ ∧ _ :=
      cloneRegion_steps tidyZ apart ends used (fun u covered => pages u ⟨i, covered⟩)
        (fun isShared u covered => sharedBoth u ⟨i, isShared, covered⟩)
        (fun isPrivate u covered => ⟨i, isPrivate, covered⟩) mineZ
    refine ⟨sameTable, cloned.2, done.steps.trans ?_⟩
    rw [← sameWorld]
    exact cloned.1
  split
  · exact finish _ (memfdMapInc_table.trans done.table) Vm.memfdMapInc_mem memfdMapInc_world
  · exact finish y done.table rfl rfl

/-- The first regions are unmapped; no region has grown. -/
structure Unmapped (sc : Scope) (x : Vm) (segments : Nat → Segment) (kstacks : Nat → Option Nat)
    (shared : DirId → Nat → Prop) (y : Vm) : Prop where
  bounded : y.table.Bounded
  covers : ∀ u, y.table.Covers u → x.table.Covers u
  steps : Steps sc (x.world segments kstacks shared) (y.world segments kstacks shared)

theorem mmapTableFree_steps (tidy : Tidy x.mem) (bounded : x.table.Bounded)
    (pages : ∀ u, x.table.Covers u → sc.pages u) :
    Steps sc (x.world segments kstacks shared)
      ((x.mmapTableFree d).world segments kstacks shared) := by
  suffices whole : Unmapped sc x segments kstacks shared (x.mmapTableFree d) from whole.steps
  refine countTo_invariant (fun _ y => Unmapped sc x segments kstacks shared y)
    ⟨bounded, fun _ => id, refl⟩ ?_
  intro i y _ done
  dsimp only
  split
  · exact done
  rename_i isUsed
  have used : (y.table.regions i).used = true := by simpa using isUsed
  have ends := done.bounded.regions i used
  obtain ⟨start, size⟩ := span_pages ends
  refine ⟨doMunmap_bounded done.bounded ?_, ?_, done.steps.trans ?_⟩
  · unfold addressPages at ends
    unfold pageSize
    omega
  · intro u covered
    refine done.covers u (doMunmap_covers done.bounded ?_ covered)
    rw [start, size]
    exact ends
  · refine doMunmap_steps (done.steps.tidy tidy) ?_
    rw [start, size]
    intro j small
    rw [wrapPage_of_lt (by omega)]
    exact pages _ (done.covers _ ⟨i, covers_iff.mpr ⟨used, by omega, by omega⟩⟩)

/-! ## ELF files -/

/-- The pages of the segments that the loader maps. -/
def File.loads (file : File) (v : Nat) : Prop :=
  ∃ h i ph, file.header = some h ∧ i < h.phnum ∧ file.phdr h i = some ph ∧ ph.isLoad = true ∧
    ph.fits = true ∧ ph.firstPage ≤ v ∧ v < ph.endPage

/-- The page below the image that `_map_image` may use for the program headers. -/
def File.headerPage (file : File) (v : Nat) : Prop :=
  ∃ h low, file.header = some h ∧ minPage file h = some low ∧ v = wrapPage (low + (2 ^ 20 - 1))

/-- The scope covers the page, and allows what happens to pages of the PCI hole. -/
def Scope.Takes (sc : Scope) (v : Nat) : Prop :=
  sc.pages v ∧ (totalPages ≤ v → sc.kinds .borrow)

variable {file : File}

theorem loadPage_steps {ph : Phdr} {i : Nat} (tidy : Tidy w.mem)
    (takes : sc.Takes (ph.firstPage + i)) :
    Steps sc w { w with mem := (loadPage d file ph i w.mem).2 } := by
  unfold loadPage
  split
  · rename_i m run
    exact plain (starve run)
  rename_i f m run
  split
  · -- the frame is not given back
    have taken : Steps sc w { w with mem := m, hand := f ::ₘ w.hand } :=
      plain (alloc run)
    exact taken.trans (plain (abandon rfl))
  · exact mapFresh_steps tidy run d takes.1 takes.2 _ true

theorem loadSegment_steps {ph : Phdr} (tidy : Tidy w.mem)
    (takes : ph.isLoad = true → ph.fits = true → ∀ v, ph.firstPage ≤ v → v < ph.endPage →
      sc.Takes v) :
    Steps sc w { w with mem := (loadSegment d file ph w.mem).2 } := by
  unfold loadSegment
  split
  · rename_i loaded
    obtain ⟨isLoad, fits⟩ := Bool.and_eq_true_iff.mp loaded
    refine loopWhilePlain tidy fun i m small tidy' => ?_
    unfold Phdr.pageCount at small
    exact loadPage_steps (w := { w with mem := m }) tidy'
      (takes isLoad fits (ph.firstPage + i) (by omega) (by omega))
  · exact refl

theorem loadSegments_steps {h : Ehdr} (tidy : Tidy w.mem)
    (header : file.header = some h) (takes : ∀ v, file.loads v → sc.Takes v) :
    Steps sc w { w with mem := (loadSegments d file h w.mem).2 } := by
  refine loopWhilePlain tidy fun i m small tidy' => ?_
  split
  · exact refl
  rename_i ph found
  refine loadSegment_steps (w := { w with mem := m }) tidy' ?_
  intro isLoad fits v first last
  exact takes v ⟨h, i, ph, header, small, found, isLoad, fits, first, last⟩

variable {m : Mem}

theorem loadElf_steps (tidy : Tidy w.mem)
    (takes : ∀ v, file.loads v → sc.Takes v) (run : loadElf d file w.mem = some m) :
    Steps sc w { w with mem := m } := by
  unfold loadElf at run
  split at run
  · cases run
  rename_i h header
  split at run
  · cases run
  have loaded : Steps sc w { w with mem := (loadSegments d file h w.mem).2 } :=
    loadSegments_steps tidy header takes
  split at run
  · rename_i m' result
    rw [result] at loaded
    split at run
    · cases run
    · cases run
      exact loaded
  · cases run

theorem mapImage_steps {entry : Nat} (tidy : Tidy w.mem)
    (takes : ∀ v, file.loads v ∨ file.headerPage v → sc.Takes v)
    (run : mapImage d file w.mem = some (entry, m)) : Steps sc w { w with mem := m } := by
  unfold mapImage at run
  split at run
  · cases run
  rename_i h header
  split at run
  · cases run
  split at run
  · cases run
  rename_i low found
  have loaded : Steps sc w { w with mem := (loadSegments d file h w.mem).2 } :=
    loadSegments_steps tidy header fun v inside => takes v (inl inside)
  split at run
  · cases run
  rename_i m' result
  rw [result] at loaded
  split at run
  · cases run
    exact loaded
  split at run
  · rename_i m'' mapped
    cases run
    have page := takes _ (inr ⟨h, low, header, found, rfl⟩)
    refine loaded.trans ?_
    unfold mapPhdrPage at mapped
    split at mapped
    · cases mapped
    rename_i f taken allocated
    cases mapped
    exact mapFresh_steps (w := { w with mem := m' }) (loaded.tidy tidy) allocated d page.1
      page.2 _ true
  · cases run

/-- The pages of an image: its segments, those of the interpreter and, with one, the pages for
the program headers. -/
def Machine.Image.loads (img : Machine.Image) (v : Nat) : Prop :=
  img.file.loads v ∨ ∃ ld, img.interp = some ld ∧
    (img.file.headerPage v ∨ ld.loads v ∨ ld.headerPage v)

theorem loadImage_steps {img : Machine.Image} (tidy : Tidy w.mem)
    (takes : ∀ v, img.loads v → sc.Takes v)
    (run : loadImage d img.file img.interp w.mem = some m) : Steps sc w { w with mem := m } := by
  unfold loadImage at run
  split at run
  · exact loadElf_steps tidy (fun v inside => takes v (inl inside)) run
  rename_i ld interp
  split at run
  · cases run
  rename_i entry m' first
  have loaded : Steps sc w { w with mem := m' } := mapImage_steps tidy
    (fun v inside => takes v (inside.imp id fun page => ⟨ld, interp, inl page⟩)) first
  split at run
  · cases run
  rename_i entry' m'' second
  have both := loaded.trans (mapImage_steps (w := { w with mem := m' }) (loaded.tidy tidy)
    (fun v inside => takes v (inr ⟨ld, interp, inr inside⟩)) second)
  split at run
  · cases run
  · cases run
    exact both

/-! ## Other pages -/

variable {d' : DirId} {u v : Nat}

theorem ownPte_setPte_other (e : Pte)
    (other : ¬ (d' = d ∧ u = v)) : (m.setPte d v e).ownPte d' u = m.ownPte d' u := by
  cases here : m.dirs d with
  | none => rw [setPte_absent here]
  | some dir =>
    cases table : (dir.pde (v / 1024)).table with
    | kernel =>
      rw [setPte_kernel here table]
      rfl
    | own h entries => rw [ownPte_setPte (ownPte_of_table here table), if_neg other]

theorem replacePte_other {f : Nat} {fl : Flags}
    (other : ¬ (d' = d ∧ u = v)) : (m.replacePte d v f fl).ownPte d' u = m.ownPte d' u := by
  unfold replacePte
  rw [ownPte_setPte_other _ other]
  split
  · rfl
  · rfl

theorem vmmMap_other {f : Nat} {fl : Flags} {e : Pte}
    (other : ¬ (d' = d ∧ u = v)) (own : m.ownPte d' u = some e) :
    (m.vmmMap d v f fl).ownPte d' u = some e := by
  unfold vmmMap
  dsimp only
  split
  · exact own
  rename_i dir here
  have widened := widen_prepared m d (v / 1024) (mapFlags v f fl).user (mapFlags v f fl).rw
  split
  · rw [replacePte_other other]
    exact widened.own d' u e own
  rename_i table
  split
  · rw [replacePte_other other]
    exact widened.own d' u e own
  have made := privatise_prepared here table (mapFlags v f fl).user (mapFlags v f fl).rw
  split
  · rename_i m' run
    rw [run] at made
    rw [replacePte_other other]
    exact made.own d' u e own
  · rename_i m' run
    rw [run] at made
    exact made.own d' u e own

/-! ## The pages of every image -/

theorem fillStack_steps (frames : Nat → Nat) (bytes : Nat → Nat → UInt8) :
    Steps sc w { w with mem := w.mem.fillStack frames bytes } := by
  refine countTo_invariant (fun _ m => Steps sc w { w with mem := m }) refl ?_
  intro i m _ before
  exact before.trans (plain (fill (frames i) (bytes i)))

theorem mapTrampoline_steps (tidy : Tidy w.mem) (page : sc.pages trampolinePage)
    (code : Nat → UInt8) : Steps sc w { w with mem := w.mem.mapTrampoline d code } := by
  unfold mapTrampoline
  split
  · rename_i m run
    exact plain (starve run)
  · rename_i f m run
    exact mapFresh_steps tidy run d page (fun high => absurd high (by decide)) _ true

theorem syncKernelMmio_steps (tidy : Tidy w.mem) (d : DirId) :
    Steps sc w { w with mem := w.mem.syncKernelMmio d } ∧
      Prepared w.mem (w.mem.syncKernelMmio d) := by
  unfold syncKernelMmio
  split
  · exact ⟨refl, Prepared.refl⟩
  rename_i dir here
  have same : ∀ i, (if pdKernelEntries ≤ i then kernelPde else dir.pde i).table =
      (dir.pde i).table := by
    intro i
    split
    · rename_i high
      have isKernel := (ownTable_none (i := i) here).mp (by
        cases table : w.mem.ownTable d i with
        | none => rfl
        | some f => exact absurd (tidy.low d i f table) (not_lt.mpr high))
      rw [isKernel]
      rfl
    · rfl
  exact ⟨plain (reflag here same), Prepared.reflag here same⟩

theorem shmUnmapFrom_steps {n : Nat} (tidy : Tidy w.mem)
    (pages : ∀ i < n, sc.pages (wrapPage (v + i))) :
    Steps sc w { w with mem := w.mem.shmUnmapFrom d v n } := by
  refine loopPlain tidy fun i m small tidy' => ?_
  have page := pages i small
  cases here : m.dirs d with
  | none =>
    rw [setPte_absent here]
    exact refl
  | some dir =>
    cases table : (dir.pde (wrapPage (v + i) / 1024)).table with
    | kernel =>
      rw [setPte_kernel here table]
      exact Steps.page page (kernelClear (w := { w with mem := m }) _)
    | own f entries =>
      exact Steps.page page (clear (w := { w with mem := m })
        (ownPte_of_table here table) Pte.inert_null)

/-! ## User stacks -/

def Mem.mapRun (m : Mem) (d : DirId) (base : Nat) (frames : Nat → Nat) (n : Nat) : Mem :=
  countTo (fun i m => m.vmmMap d (base + i) (frames i) (userFlags true)) n m

section Run

variable {base n : Nat} {frames : Nat → Nat} {hand : Multiset Nat}

theorem mapRun_succ (m : Mem) (d : DirId) (base : Nat) (frames : Nat → Nat) (n : Nat) :
    m.mapRun d base frames (n + 1) =
      (m.mapRun d base frames n).vmmMap d (base + n) (frames n) (userFlags true) := rfl

theorem mapRun_other {e : Pte}
    (other : ∀ i < n, ¬ (d' = d ∧ u = base + i)) (own : m.ownPte d' u = some e) :
    (m.mapRun d base frames n).ownPte d' u = some e := by
  induction n with
  | zero => exact own
  | succ n ih =>
    rw [mapRun_succ]
    exact vmmMap_other (other n (lt_succ_self n))
      (ih fun i small => other i (lt_succ_of_lt small))

/-- A stack page shows its frame, writable. -/
def Shows (m : Mem) (d : DirId) (v f : Nat) : Prop :=
  ∃ e, m.ownPte d v = some e ∧ e.holds = true ∧ e.frame = f ∧ e.flags.rw = true

theorem mapRun_keep (tidy : Tidy w.mem) (low : ∀ i < n, base + i < totalPages)
    (pages : ∀ i < n, sc.pages (base + i)) (inHands : w.hand = inHand frames n + hand) :
    ∃ left : Finset Nat, left ⊆ range n ∧
      Steps sc w { w with
        mem := w.mem.mapRun d base frames n
        hand := left.val.map frames + hand } ∧
      ∀ i < n, i ∉ left → Shows (w.mem.mapRun d base frames n) d (base + i) (frames i) := by
  induction n generalizing hand with
  | zero =>
    refine ⟨∅, by simp, ?_, nofun⟩
    simp only [inHand, Multiset.range_zero, map_zero, zero_add] at inHands
    simp only [Finset.empty_val, map_zero, zero_add, ← inHands]
    exact refl
  | succ n ih =>
    rw [inHand_succ, cons_add, ← add_cons] at inHands
    obtain ⟨left, few, steps, shown⟩ := ih (fun i small => low i (lt_succ_of_lt small))
      (fun i small => pages i (lt_succ_of_lt small)) inHands
    have kept : ∀ i < n, i ∉ left →
        Shows (w.mem.mapRun d base frames (n + 1)) d (base + i) (frames i) := by
      intro i small outside
      obtain ⟨e, own, rest⟩ := shown i small outside
      refine ⟨e, vmmMap_other (fun same => ?_) own, rest⟩
      have := same.2
      omega
    rw [add_cons] at steps
    have last := vmmMap_fresh (w := { w with mem := _, hand := frames n ::ₘ _ }) (steps.tidy tidy) d
      (low n (lt_succ_self n)) (pages n (lt_succ_self n)) rfl (userFlags true) rfl
    have fresh : n ∉ left := fun inside => lt_irrefl n (mem_range.mp (few inside))
    have more : left ⊆ range (n + 1) :=
      few.trans (Finset.range_subset_range.mpr (le_succ n))
    rcases last with failed | ⟨installed, own⟩
    · refine ⟨insert n left, ?_, ?_, ?_⟩
      · exact Finset.insert_subset (Finset.self_mem_range_succ n) more
      · rw [Finset.insert_val_of_notMem fresh, map_cons, cons_add]
        exact steps.trans failed
      · intro i small outside
        have other : i ≠ n := fun same => outside (same ▸ Finset.mem_insert_self n left)
        exact kept i (lt_of_le_of_ne (le_of_lt_succ small) other)
          fun inside => outside (Finset.mem_insert_of_mem inside)
    · refine ⟨left, more, steps.trans installed, ?_⟩
      intro i small outside
      by_cases same : i = n
      · rw [same]
        exact ⟨_, own, rfl, rfl, rfl⟩
      · exact kept i (lt_of_le_of_ne (le_of_lt_succ small) same) outside

theorem mapRun_again {left : Finset Nat} (tidy : Tidy w.mem)
    (low : ∀ i < n, base + i < totalPages) (pages : ∀ i < n, sc.pages (base + i))
    (few : left ⊆ range n) (inHands : w.hand = left.val.map frames + hand)
    (shown : ∀ i < n, i ∉ left → Shows w.mem d (base + i) (frames i) ∨
      sc.kinds .borrow ∧ sc.frames (frames i)) :
    Steps sc w { w with mem := w.mem.mapRun d base frames n, hand := hand } := by
  induction n generalizing hand left with
  | zero =>
    have none : left = ∅ := Finset.subset_empty.mp few
    rw [none] at inHands
    simp only [Finset.empty_val, map_zero, zero_add] at inHands
    rw [← inHands]
    exact refl
  | succ n ih =>
    have lowLast := low n (lt_succ_self n)
    have pageLast := pages n (lt_succ_self n)
    have earlier : ∀ rest, w.hand = (left.erase n).val.map frames + rest →
        Steps sc w { w with mem := w.mem.mapRun d base frames n, hand := rest } := by
      intro rest split
      refine ih (fun i small => low i (lt_succ_of_lt small))
        (fun i small => pages i (lt_succ_of_lt small)) ?_ split ?_
      · intro i inside
        obtain ⟨other, member⟩ := Finset.mem_erase.mp inside
        have small := mem_range.mp (few member)
        exact mem_range.mpr (lt_of_le_of_ne (le_of_lt_succ small) other)
      · intro i small outside
        refine shown i (lt_succ_of_lt small) fun member => outside ?_
        exact Finset.mem_erase.mpr ⟨Nat.ne_of_lt small, member⟩
    by_cases member : n ∈ left
    · have split : w.hand = (left.erase n).val.map frames + (frames n ::ₘ hand) := by
        rw [inHands, ← Finset.insert_erase member, Finset.insert_val_of_notMem (by simp),
          Finset.erase_insert (by simp), map_cons, cons_add, add_cons]
      have before := earlier _ split
      refine before.trans (vmmMap_place (w := { w with mem := _, hand := frames n ::ₘ hand })
        (before.tidy tidy) d pageLast (fun high => ?_) rfl true)
      exact absurd lowLast (not_lt.mpr high)
    · rw [← Finset.erase_eq_of_notMem member] at inHands
      have before := earlier hand inHands
      refine before.trans ?_
      rcases vmmMap_prepare (w := { w with mem := w.mem.mapRun d base frames n, hand := hand })
        (before.tidy tidy) d lowLast pageLast (frames n) (userFlags true) with
          failed | ⟨m, now, steps, own, result, same⟩
      · exact failed
      rw [mapRun_succ, result]
      refine steps.trans ?_
      rcases shown n (lt_succ_self n) member with ⟨e, shows, holds, frame, writable⟩ | allowed
      · have still : (w.mem.mapRun d base frames n).ownPte d (base + n) = some e := by
          refine mapRun_other (fun i small clash => ?_) shows
          have := clash.2
          omega
        have unchanged := same e still frame
        subst unchanged
        rw [← frame]
        refine single ?_ (protect own holds (holds_mapFlags rfl))
        exact Label.within_kind (g := none) pageLast (inl (if_pos fun _ => inl writable))
      · refine single ?_ (borrow own (holds_mapFlags rfl))
        refine Label.within_kind pageLast (inr allowed.1) ?_
        intro f isFrame
        cases isFrame
        exact allowed.2

theorem mapRun_place (tidy : Tidy w.mem) (low : ∀ i < n, base + i < totalPages)
    (pages : ∀ i < n, sc.pages (base + i)) (inHands : w.hand = inHand frames n + hand) :
    Steps sc w { w with mem := w.mem.mapRun d base frames n, hand := hand } :=
  mapRun_again tidy low pages (Finset.Subset.refl (range n)) inHands
    fun _ small outside => absurd (mem_range.mpr small) outside

end Run

end CactKernel.Memory
