import CactKernel.Memory.Frames
import CactKernel.Lib.Reach

/-! # The frame allocator over whole histories

`FrameCall` is one section under `PAGE_LOCK`. A `kalloc` that finds no frame and
reclaims some is a `kalloc`, the `free_page` calls of the reclaim round, and the
`kalloc` of the next round, so nothing is said here about how frames are reclaimed.

The second half counts acquisitions and releases of every frame beside the
allocator and compares them with the `u16` counts that the code keeps. -/

set_option autoImplicit false

namespace CactKernel.Memory

open Lib List Function Reach

/-! ## Calls with any argument -/

inductive FrameCall
  | kalloc
  | pageRefInc (phys : Nat)
  | freePage (ptr : Nat)

namespace Pmm

/-- `free_page` on an address: null and unaligned pointers are ignored. -/
def freePtr (pm : Pmm) (ptr : Nat) : Pmm :=
  if ptr = 0 ∨ ptr % pageSize ≠ 0 then pm else pm.freePage (ptr / pageSize)

def call (pm : Pmm) : FrameCall → Pmm
  | .kalloc => pm.kalloc.2
  | .pageRefInc phys => pm.pageRefInc (phys / pageSize)
  | .freePage ptr => pm.freePtr ptr

/-! ## The scan -/

theorem scan_some {used : Nat → Bool} {n i f : Nat} (found : scan used n i = some f) :
    i ≤ f ∧ f < i + n ∧ used f = false ∧ ∀ g, i ≤ g → g < f → used g = true := by
  induction n generalizing i with
  | zero => simp [scan] at found
  | succ n ih =>
    rw [scan] at found
    split at found
    · rename_i taken
      obtain ⟨above, inside, free, before⟩ := ih found
      refine ⟨by omega, by omega, free, ?_⟩
      intro g low high
      rcases Nat.eq_or_lt_of_le low with here | later
      · rw [← here]
        exact taken
      · exact before g later high
    · rename_i isFree
      cases found
      refine ⟨Nat.le_refl _, by omega, by simpa using isFree, ?_⟩
      intro g low high
      exact absurd high (Nat.not_lt.mpr low)

theorem scan_none {used : Nat → Bool} {n i : Nat} (failed : scan used n i = none) :
    ∀ g, i ≤ g → g < i + n → used g = true := by
  induction n generalizing i with
  | zero =>
    intro g low high
    omega
  | succ n ih =>
    rw [scan] at failed
    split at failed
    · rename_i taken
      intro g low high
      rcases Nat.eq_or_lt_of_le low with here | later
      · rw [← here]
        exact taken
      · exact ih failed g later (by omega)
    · cases failed

/-! ## The hint -/

/-- No frame below the hint is free, and only frames that the allocator manages are. -/
structure Sound (pm : Pmm) : Prop where
  below : ∀ f < pm.hint, pm.used f = true
  managed : ∀ f, pm.used f = false → heapEndPage ≤ f ∧ f < totalPages

variable {pm pm' : Pmm} {f : Nat}

theorem kalloc_some (run : pm.kalloc = (some f, pm')) :
    scan pm.used (totalPages - pm.hint) pm.hint = some f ∧ pm' = { pm with
      used := update pm.used f true
      refs := update pm.refs f 1
      hint := f + 1 } := by
  unfold kalloc at run
  split at run
  · rename_i g found
    cases run
    exact ⟨found, rfl⟩
  · cases run

theorem kalloc_none (run : pm.kalloc = (none, pm')) :
    scan pm.used (totalPages - pm.hint) pm.hint = none ∧ pm' = { pm with exhausted := true } := by
  unfold kalloc at run
  split at run
  · cases run
  rename_i failed
  cases run
  exact ⟨failed, rfl⟩

theorem Sound.lowest (sound : pm.Sound) (run : pm.kalloc = (some f, pm')) :
    pm.used f = false ∧ ∀ g < f, pm.used g = true := by
  obtain ⟨found, -⟩ := kalloc_some run
  obtain ⟨-, -, free, before⟩ := scan_some found
  refine ⟨free, ?_⟩
  intro g small
  by_cases low : g < pm.hint
  · exact sound.below g low
  · exact before g (Nat.le_of_not_lt low) small

theorem Sound.full (sound : pm.Sound) (run : pm.kalloc = (none, pm')) (f : Nat) :
    pm.used f = true := by
  obtain ⟨failed, -⟩ := kalloc_none run
  by_contra notUsed
  have free : pm.used f = false := by simpa using notUsed
  have inside := (sound.managed f free).2
  by_cases low : f < pm.hint
  · exact notUsed (sound.below f low)
  · exact notUsed (scan_none failed f (Nat.le_of_not_lt low) (by omega))

theorem Sound.kalloc (sound : pm.Sound) : pm.kalloc.2.Sound := by
  cases run : pm.kalloc with
  | mk result pm' =>
    cases result with
    | none =>
      obtain ⟨-, rfl⟩ := kalloc_none run
      exact ⟨sound.below, sound.managed⟩
    | some f =>
      obtain ⟨-, before⟩ := sound.lowest run
      obtain ⟨-, rfl⟩ := kalloc_some run
      refine ⟨?_, ?_⟩
      · intro g small
        change update pm.used f true g = true
        rw [update_apply]
        split
        · rfl
        · rename_i other
          exact before g (Nat.lt_of_le_of_ne (Nat.le_of_lt_succ small) other)
      · intro g free
        change update pm.used f true g = false at free
        rw [update_apply] at free
        split at free
        · cases free
        · exact sound.managed g free

theorem Sound.pageRefInc (sound : pm.Sound) (f : Nat) : (pm.pageRefInc f).Sound := by
  unfold Pmm.pageRefInc
  split
  · exact sound
  split
  · exact ⟨sound.below, sound.managed⟩
  · exact ⟨sound.below, sound.managed⟩

theorem Sound.freePage (sound : pm.Sound) (f : Nat) : (pm.freePage f).Sound := by
  unfold Pmm.freePage
  split
  · exact sound
  rename_i isManaged
  have managed : Managed f := not_not.mp isManaged
  split
  · exact ⟨sound.below, sound.managed⟩
  refine ⟨?_, ?_⟩
  · intro g small
    have other : g ≠ f := by
      intro same
      subst same
      exact absurd small (Nat.not_lt.mpr (Nat.min_le_right ..))
    dsimp only
    rw [update_of_ne other]
    exact sound.below g (Nat.lt_of_lt_of_le small (Nat.min_le_left ..))
  · intro g free
    dsimp only at free
    rw [update_apply] at free
    split at free
    · rename_i same
      subst same
      obtain ⟨inside, above, outside⟩ := managed
      exact ⟨Nat.le_of_not_lt fun low => outside ⟨above, low⟩, inside⟩
    · exact sound.managed g free

theorem Sound.call (sound : pm.Sound) (c : FrameCall) : (pm.call c).Sound := by
  cases c with
  | kalloc => exact sound.kalloc
  | pageRefInc phys => exact sound.pageRefInc _
  | freePage ptr =>
    change (pm.freePtr ptr).Sound
    unfold freePtr
    split
    · exact sound
    · exact sound.freePage _

end Pmm

/-! ## The boot map -/

/-- The frame lies in an available entry of the boot map, below the PCI hole. -/
def MmapEntry.Spans (e : MmapEntry) (f : Nat) : Prop :=
  e.ty = 1 ∧ e.base ≤ f * pageSize ∧ (f + 1) * pageSize ≤ min (e.base + e.len) pciHoleStart

theorem MmapEntry.frees_iff (e : MmapEntry) (f : Nat) : e.frees f = true ↔
    e.ty = 1 ∧ e.len ≠ 0 ∧ e.base < min (saturateU64 (e.base + e.len)) pciHoleStart ∧
      (e.base + 4095) / 4096 ≤ f ∧ f < min (saturateU64 (e.base + e.len)) pciHoleStart / 4096 ∧
      f < totalPages := by
  simp [frees, and_assoc]

theorem MmapEntry.clip_frees_iff (e : MmapEntry) (f : Nat) : e.clip.frees f = true ↔ e.Spans f := by
  rw [frees_iff]
  unfold clip Spans pageSize
  split
  · omega
  split
  · dsimp only
    omega
  split
  · unfold saturateU64 pciHoleStart totalPages at *
    dsimp only
    omega
  · unfold saturateU64 pciHoleStart totalPages at *
    omega

variable {map : List MmapEntry}

theorem init_used_iff {f : Nat} : (initMemoryManager map).used f = false ↔
    available map f = true ∧ ¬ f < reservedPages ∧ ¬ (reservedPages ≤ f ∧ f < heapEndPage) := by
  simp [initMemoryManager, and_assoc]

theorem init_free_iff (some : map ≠ []) (few : map.length ≤ 128) (f : Nat) :
    (initMemoryManager map).used f = false ↔ heapEndPage ≤ f ∧ ∃ e ∈ map, e.Spans f := by
  have notEmpty : map.isEmpty = false := by simpa using some
  have whole : map.take 128 = map := take_of_length_le few
  have spans : available map f = true ↔ ∃ e ∈ map, e.Spans f := by
    simp [available, notEmpty, whole, MmapEntry.clip_frees_iff]
  rw [init_used_iff, spans]
  unfold reservedPages heapEndPage
  constructor
  · rintro ⟨inside, low, window⟩
    exact ⟨by omega, inside⟩
  · rintro ⟨above, inside⟩
    exact ⟨inside, by omega, by omega⟩

theorem available_low {f : Nat} (isFree : available map f = true) :
    f < totalPages := by
  unfold available at isFree
  split at isFree
  · simp only [Bool.and_eq_true, decide_eq_true_eq] at isFree
    exact isFree.2
  · obtain ⟨e, -, frees⟩ := any_eq_true.mp isFree
    exact ((MmapEntry.frees_iff _ f).mp frees).2.2.2.2.2

theorem init_sound (map : List MmapEntry) : (initMemoryManager map).Sound := by
  refine ⟨?_, ?_⟩
  · intro f low
    by_contra notUsed
    have free := init_used_iff.mp (by simpa using notUsed)
    exact free.2.2 ⟨Nat.le_of_not_lt free.2.1, low⟩
  · intro f free
    obtain ⟨isFree, above, window⟩ := init_used_iff.mp free
    exact ⟨Nat.le_of_not_lt fun low => window ⟨Nat.le_of_not_lt above, low⟩, available_low isFree⟩

/-- After any calls the allocator hands out the lowest free frame, none below the end of the heap
window or in the PCI hole, and fails only if no frame is free; at first the free frames are those
of the boot map. -/
theorem kalloc_returns_lowest_free (map : List MmapEntry) (entries : 1 ≤ map.length)
    (few : map.length ≤ 128) :
    (∀ f, (initMemoryManager map).used f = false ↔ heapEndPage ≤ f ∧ ∃ e ∈ map, e.Spans f) ∧
    ∀ pm, Reach (· = initMemoryManager map) (fun pm c pm' => pm' = Pmm.call pm c) pm →
      (∀ f < pm.hint, pm.used f = true) ∧
      (∀ f pm', pm.kalloc = (some f, pm') → pm.used f = false ∧ (∀ g < f, pm.used g = true) ∧
        heapEndPage ≤ f ∧ f < totalPages) ∧
      (∀ pm', pm.kalloc = (none, pm') → ∀ f, pm.used f = true) := by
  refine ⟨init_free_iff (length_pos_iff.mp entries) few, ?_⟩
  intro pm reached
  have sound : pm.Sound := by
    refine invariant Pmm.Sound ?_ ?_ reached
    · rintro _ rfl
      exact init_sound map
    · rintro before c _ sound rfl
      exact sound.call c
  refine ⟨sound.below, ?_, fun pm' run => sound.full run⟩
  intro f pm' run
  obtain ⟨free, before⟩ := sound.lowest run
  exact ⟨free, before, sound.managed f free⟩

/-- A map with one available entry that is not page aligned. -/
theorem kalloc_returns_lowest_free_one_entry :
    (1 ≤ [(⟨0x2FFF800, 0x3000, 1⟩ : MmapEntry)].length) ∧
    (initMemoryManager [⟨0x2FFF800, 0x3000, 1⟩]).used 0x3000 = false := by
  refine ⟨by decide, ?_⟩
  have spec := kalloc_returns_lowest_free [⟨0x2FFF800, 0x3000, 1⟩] (by decide) (by decide)
  refine (spec.1 0x3000).mpr ⟨by decide, ⟨0x2FFF800, 0x3000, 1⟩, mem_singleton.mpr rfl, ?_⟩
  unfold MmapEntry.Spans pageSize pciHoleStart
  decide

/-! ## Acquisitions and releases -/

/-- The allocator with the number of times each frame was acquired and released. -/
structure Counted where
  pmm : Pmm
  acquired : Nat → Nat
  released : Nat → Nat

namespace Counted

/-- Calls that keep to the discipline of the callers, on the frame `f`. -/
inductive Call
  | kalloc
  | pageRefInc (f : Nat)
  | freePage (f : Nat)

def Outstanding (c : Counted) (f : Nat) : Prop := c.released f < c.acquired f

instance (c : Counted) (f : Nat) : Decidable (c.Outstanding f) := Nat.decLt ..

/-- `page_ref_inc` is called on allocated frames only, and `free_page` once for a reference. -/
def step (c : Counted) : Call → Option Counted
  | .kalloc =>
    match c.pmm.kalloc with
    | (none, pm) => some { c with pmm := pm }
    | (some f, pm) =>
      some { c with pmm := pm, acquired := update c.acquired f (c.acquired f + 1) }
  | .pageRefInc f =>
    if c.Outstanding f then
      some { c with
        pmm := c.pmm.pageRefInc f
        acquired := update c.acquired f (c.acquired f + 1) }
    else none
  | .freePage f =>
    if c.Outstanding f then
      some { c with
        pmm := c.pmm.freePage f
        released := update c.released f (c.released f + 1) }
    else none

def boot (map : List MmapEntry) : Counted := ⟨initMemoryManager map, fun _ => 0, fun _ => 0⟩

/-- No reference is added to a frame that has 65535 of them. -/
def Unsaturated (c : Counted) : Call → Prop
  | .pageRefInc f => c.pmm.refs f < 65535
  | _ => True

instance (c : Counted) : DecidablePred c.Unsaturated
  | .pageRefInc f => inferInstanceAs (Decidable (c.pmm.refs f < 65535))
  | .kalloc | .freePage _ => .isTrue trivial

/-- The count of a frame of the allocator is the number of references to it; no other frame is
ever handed out. -/
structure Law (ram : Nat → Prop) (c : Counted) : Prop where
  count : ∀ f, ram f → c.released f + c.pmm.refs f = c.acquired f
  free : ∀ f, ram f → (c.pmm.used f = false ↔ c.pmm.refs f = 0)
  other : ∀ f, ¬ ram f → c.acquired f = 0 ∧ c.pmm.used f = true

variable {ram : Nat → Prop} {c c' : Counted} {f : Nat}

theorem Law.ram_of_outstanding (law : c.Law ram) (outstanding : c.Outstanding f) : ram f := by
  by_contra outside
  have none := (law.other f outside).1
  unfold Outstanding at outstanding
  omega

theorem Law.at (law : c.Law ram) (inside : ram f)
    (others : ∀ g, g ≠ f → c'.pmm.refs g = c.pmm.refs g ∧ c'.pmm.used g = c.pmm.used g ∧
      c'.acquired g = c.acquired g ∧ c'.released g = c.released g)
    (count : c'.released f + c'.pmm.refs f = c'.acquired f)
    (free : c'.pmm.used f = false ↔ c'.pmm.refs f = 0) : c'.Law ram := by
  refine ⟨fun g member => ?_, fun g member => ?_, fun g outside => ?_⟩
  · by_cases same : g = f
    · rw [same]
      exact count
    · obtain ⟨refs, -, acquired, released⟩ := others g same
      rw [refs, acquired, released]
      exact law.count g member
  · by_cases same : g = f
    · rw [same]
      exact free
    · obtain ⟨refs, used, -⟩ := others g same
      rw [refs, used]
      exact law.free g member
  · obtain ⟨-, used, acquired, -⟩ := others g fun same => outside (same ▸ inside)
    rw [used, acquired]
    exact law.other g outside

theorem Law.kalloc (law : c.Law ram) (run : c.step .kalloc = some c') : c'.Law ram := by
  rw [step] at run
  split at run
  · rename_i pm failed
    cases run
    obtain ⟨-, rfl⟩ := Pmm.kalloc_none failed
    exact ⟨law.count, law.free, law.other⟩
  rename_i f pm found
  cases run
  obtain ⟨scanned, rfl⟩ := Pmm.kalloc_some found
  have isFree := (Pmm.scan_some scanned).2.2.1
  have inside : ram f := by
    by_contra outside
    have taken := (law.other f outside).2
    rw [isFree] at taken
    cases taken
  have unheld := (law.free f inside).mp isFree
  have before := law.count f inside
  refine law.at inside (fun g other => by simp [other]) ?_ (by simp)
  simp only [update_self]
  omega

theorem Law.pageRefInc (law : c.Law ram) (managed : ∀ f, ram f → Pmm.Managed f)
    (room : c.pmm.refs f < 65535) (run : c.step (.pageRefInc f) = some c') : c'.Law ram := by
  rw [step] at run
  split at run
  · rename_i outstanding
    cases run
    have inside := law.ram_of_outstanding outstanding
    obtain ⟨low, above, -⟩ := managed f inside
    have before := law.count f inside
    have counted : c.pmm.pageRefInc f =
        { c.pmm with refs := update c.pmm.refs f (c.pmm.refs f + 1) } := by
      unfold Pmm.pageRefInc
      rw [if_neg (by omega), if_pos room]
    unfold Outstanding at outstanding
    rw [counted]
    refine law.at inside (fun g other => by simp [other]) ?_ ?_
    · simp only [update_self]
      omega
    · simp only [update_self, law.free f inside]
      omega
  · cases run

theorem Law.freePage (law : c.Law ram) (managed : ∀ f, ram f → Pmm.Managed f)
    (run : c.step (.freePage f) = some c') : c'.Law ram := by
  rw [step] at run
  split at run
  · rename_i outstanding
    cases run
    have inside := law.ram_of_outstanding outstanding
    have before := law.count f inside
    unfold Outstanding at outstanding
    unfold Pmm.freePage
    rw [if_neg (not_not.mpr (managed f inside))]
    split
    · refine law.at inside (fun g other => by simp [other]) ?_ ?_
      · simp only [update_self]
        omega
      · simp only [update_self, law.free f inside]
        omega
    · refine law.at inside (fun g other => by simp [other]) ?_ (by simp)
      simp only [update_self]
      omega
  · cases run

theorem boot_law (map : List MmapEntry) :
    (boot map).Law fun f => (initMemoryManager map).used f = false := by
  refine ⟨fun _ _ => rfl, ?_, ?_⟩
  · intro f free
    exact ⟨fun _ => rfl, fun _ => free⟩
  · intro f taken
    exact ⟨rfl, by simpa [boot] using taken⟩

theorem managed_of_free (f : Nat)
    (free : (initMemoryManager map).used f = false) : Pmm.Managed f := by
  obtain ⟨isFree, above, window⟩ := init_used_iff.mp free
  exact ⟨available_low isFree, Nat.le_of_not_lt above, window⟩

end Counted

/-- In every history that adds no reference to a frame with 65535 references, a frame of the
allocator is free exactly when it was released as often as acquired, and only such a frame is
handed out. -/
theorem frame_free_iff_released (map : List MmapEntry) (c : Counted)
    (reached : Reach (· = Counted.boot map)
      (restrict Counted.Unsaturated fun c call c' => c.step call = some c') c) :
    (∀ f, (initMemoryManager map).used f = false →
      (c.pmm.used f = false ↔ c.released f = c.acquired f)) ∧
    ∀ f pm, c.pmm.kalloc = (some f, pm) → c.released f = c.acquired f := by
  have law : c.Law fun f => (initMemoryManager map).used f = false := by
    refine invariant (Counted.Law _) ?_ ?_ reached
    · rintro _ rfl
      exact Counted.boot_law map
    · rintro before call after law ⟨room, run⟩
      cases call with
      | kalloc => exact law.kalloc run
      | pageRefInc f => exact law.pageRefInc Counted.managed_of_free room run
      | freePage f => exact law.freePage Counted.managed_of_free run
  have exactly : ∀ f, (initMemoryManager map).used f = false →
      (c.pmm.used f = false ↔ c.released f = c.acquired f) := by
    intro f inside
    have count := law.count f inside
    rw [law.free f inside]
    omega
  refine ⟨exactly, ?_⟩
  intro f pm run
  have isFree := (Pmm.scan_some (Pmm.kalloc_some run).1).2.2.1
  by_cases inside : (initMemoryManager map).used f = false
  · exact (exactly f inside).mp isFree
  have taken := (law.other f inside).2
  rw [isFree] at taken
  cases taken

/-- One frame of RAM, right behind the heap window. -/
def oneFrame : List MmapEntry := [⟨0x3000000, 0x1000, 1⟩]

/-- The frame is handed out and gets a second reference; the first release keeps it, the second
frees it. -/
theorem frame_free_iff_released_after_alloc : ∃ c d : Counted, c.acquired 0x3000 = 2 ∧
    c.released 0x3000 = 1 ∧ c.pmm.used 0x3000 ≠ false ∧
    c.step (.freePage 0x3000) = some d ∧ d.pmm.used 0x3000 = false := by
  obtain ⟨c, reached, taken, given, last⟩ := exists_of_guarded_run (· = Counted.boot oneFrame)
    Counted.step Counted.Unsaturated (fun _ _ _ move => move) rfl
    [.kalloc, .pageRefInc 0x3000, .freePage 0x3000] (fun c => c.acquired 0x3000 = 2 ∧
      c.released 0x3000 = 1 ∧ (c.step (.freePage 0x3000)).any (fun d =>
        decide (d.released 0x3000 = d.acquired 0x3000)) = true) (by decide +kernel)
  obtain ⟨d, freed, balanced⟩ := exists_of_any _ _ last
  have ram : (initMemoryManager oneFrame).used 0x3000 = false := by decide +kernel
  have here := (frame_free_iff_released oneFrame c reached).1 0x3000 ram
  have later := (frame_free_iff_released oneFrame d
    (reached.next (a := .freePage 0x3000) ⟨trivial, freed⟩)).1 0x3000 ram
  refine ⟨c, d, taken, given, fun free => ?_, freed, later.mpr balanced⟩
  have even := here.mp free
  omega

/-! ## The saturating count -/

namespace Counted

variable {init : Counted → Prop} {c : Counted} {f : Nat}

theorem reach_acquire (n : Nat) (managed : Pmm.Managed f)
    (reached : Reach init (fun c call c' => c.step call = some c') c)
    (outstanding : c.Outstanding f)
    (low : c.pmm.refs f ≤ 65535) :
    ∃ c', Reach init (fun c call c' => c.step call = some c') c' ∧
      c'.pmm.refs f = min (c.pmm.refs f + n) 65535 ∧ c'.acquired f = c.acquired f + n ∧
      c'.released f = c.released f := by
  induction n with
  | zero => exact ⟨c, reached, by omega, rfl, rfl⟩
  | succ n ih =>
    obtain ⟨c', reached', refs, acquired, released⟩ := ih
    have still : c'.Outstanding f := by
      unfold Outstanding at outstanding ⊢
      omega
    refine ⟨_, reached'.next (a := .pageRefInc f) (if_pos still), ?_, ?_, ?_⟩
    · obtain ⟨below, above, -⟩ := managed
      unfold Pmm.pageRefInc
      rw [if_neg (by omega)]
      generalize 65535 = limit at refs low ⊢
      split
      · simp only [update_self]
        omega
      · simp only
        omega
    · simp only [update_self]
      omega
    · exact released

theorem reach_release (n : Nat) (managed : Pmm.Managed f)
    (reached : Reach init (fun c call c' => c.step call = some c') c) (fewer : n < c.pmm.refs f)
    (outstanding : c.released f + n < c.acquired f) :
    ∃ c', Reach init (fun c call c' => c.step call = some c') c' ∧
      c'.pmm.refs f = c.pmm.refs f - n ∧ c'.acquired f = c.acquired f ∧
      c'.released f = c.released f + n := by
  induction n with
  | zero => exact ⟨c, reached, rfl, rfl, rfl⟩
  | succ n ih =>
    obtain ⟨c', reached', refs, acquired, released⟩ := ih (by omega) (by omega)
    have still : c'.Outstanding f := by
      unfold Outstanding
      omega
    refine ⟨_, reached'.next (a := .freePage f) (if_pos still), ?_, ?_, ?_⟩
    · unfold Pmm.freePage
      rw [if_neg (not_not.mpr managed), if_pos (by omega)]
      simp only [update_self]
      omega
    · exact acquired
    · simp only [update_self]
      omega

end Counted

/-- 65536 acquisitions and 65535 releases: the frame is free, and one reference is left. -/
theorem frame_freed_while_referenced :
    ∃ c f, Reach (· = Counted.boot oneFrame) (fun c call c' => Counted.step c call = some c') c ∧
      (initMemoryManager oneFrame).used f = false ∧ c.pmm.used f = false ∧
      c.released f = 65535 ∧ c.acquired f = 65536 := by
  have managed : Pmm.Managed 0x3000 := by decide
  obtain ⟨c₁, first, refs₁, acquired₁, released₁⟩ : ∃ c,
      (Counted.boot oneFrame).step .kalloc = some c ∧ c.pmm.refs 0x3000 = 1 ∧
        c.acquired 0x3000 = 1 ∧ c.released 0x3000 = 0 := ⟨_, rfl, by decide +kernel⟩
  have outstanding₁ : c₁.Outstanding 0x3000 := by
    unfold Counted.Outstanding
    omega
  have reached₁ : Reach (· = Counted.boot oneFrame)
      (fun c call c' => Counted.step c call = some c') c₁ :=
    next (start rfl) first
  obtain ⟨c₂, reached₂, refs₂, acquired₂, released₂⟩ :=
    Counted.reach_acquire 65535 managed reached₁ outstanding₁ (by omega)
  obtain ⟨c₃, reached₃, refs₃, acquired₃, released₃⟩ := Counted.reach_release 65534 managed reached₂
    (by omega) (by omega)
  have outstanding₃ : c₃.Outstanding 0x3000 := by
    unfold Counted.Outstanding
    omega
  refine ⟨_, 0x3000, reached₃.next (a := .freePage 0x3000) (if_pos outstanding₃), by decide +kernel,
    ?_, ?_, ?_⟩
  · unfold Pmm.freePage
    rw [if_neg (not_not.mpr managed), if_neg (by omega)]
    simp
  · simp only [update_self]
    omega
  · simp only
    omega

end CactKernel.Memory
