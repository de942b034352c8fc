import CactKernel.Memory.SwapStill
import CactKernel.Lib.Reach

/-! # Who owns a swap slot

Used slots and swapped-out entries correspond as long as nothing copies or drops
such an entry. The calls that copy or clear entries do not look at `PAGE_SWAPPED`,
so this is the guard of the runs below: the entry that such a call handles next is
not swapped out. -/

set_option autoImplicit false

namespace CactKernel.Memory

open Lib List Option Function Or Reach

variable {m m' : Mem} {d c : DirId} {v : Nat} {e : Pte}

/-! ## Slots and their pages -/

/-- Used slots and swapped-out entries correspond, and a slot holds what was swapped out of the
page that names it. -/
structure Slots (m : Mem) (dev : Device) : Prop where
  kernel : m.KernelClean
  named : ∀ d v slot, m.slotAt d v = some slot →
    slot < dev.total ∧ dev.used slot = true ∧ dev.writer slot = (d, v)
  held : ∀ slot, dev.used slot = true → ∃ d v, m.slotAt d v = some slot

namespace Slots

variable {dev : Device}

theorem of_slots (kept : Slots m dev) (slots : ∀ d v, m'.slotAt d v = m.slotAt d v)
    (kernel : m'.KernelClean) : Slots m' dev where
  kernel := kernel
  named d v slot entry := kept.named d v slot ((slots d v).symm.trans entry)
  held slot taken := by
    obtain ⟨d, v, entry⟩ := kept.held slot taken
    exact ⟨d, v, (slots d v).trans entry⟩

theorem still (kept : Slots m dev) (same : Still m m') : Slots m' dev :=
  kept.of_slots same.slots (same.kernel kept.kernel)

theorem move_clock (kept : Slots m dev) (hand : Nat × Nat) : Slots m { dev with clock := hand } :=
  ⟨kept.kernel, kept.named, kept.held⟩

end Slots

variable {old : Pte} {dev dev' : Device} {page : DirId × Nat} {bytes : Nat → UInt8}
  {written : Bool} {slot : Nat}

theorem Mem.slotAt_setPte (own : m.ownPte d v = some old) (d' : DirId) (v' : Nat) :
    (m.setPte d v e).slotAt d' v' = if d' = d ∧ v' = v then e.slot else m.slotAt d' v' := by
  rw [Mem.slotAt, Mem.pteAt_setPte own]
  split
  · rfl
  · rfl

theorem swapOutPage_some (run : dev.swapOutPage page bytes written = (some slot, dev')) :
    slot < dev.total ∧ dev.used slot = false ∧ dev'.total = dev.total ∧
      dev'.used = update dev.used slot true ∧ dev'.disk = update dev.disk slot bytes ∧
      dev'.writer = update dev.writer slot page := by
  unfold Device.swapOutPage at run
  split at run
  · cases run
  rename_i found
  have free := find?_some found
  have inside := mem_range.mp (mem_of_find?_eq_some found)
  split at run
  · cases run
    exact ⟨inside, by simpa using free, rfl, rfl, rfl, rfl⟩
  · cases run

theorem swapOutPage_none (run : dev.swapOutPage page bytes written = (none, dev')) :
    dev' = dev := by
  unfold Device.swapOutPage at run
  split at run
  · cases run
    rfl
  rename_i slot found
  have free : dev.used slot = false := by simpa using find?_some found
  have inside := mem_range.mp (mem_of_find?_eq_some found)
  split at run
  · cases run
  cases run
  have same : update dev.used slot false = dev.used := by
    rw [← free]
    exact update_eq_self _ _
  simp [Device.bitmapFree, if_neg (Nat.not_le.mpr inside), same]

theorem Slots.swapOut (kept : Slots m dev) (own : m.ownPte d v = some old)
    (present : old.slot = none) (fl : Flags)
    (run : dev.swapOutPage (d, v) bytes written = (some slot, dev')) :
    Slots (m.setPte d v (swapEncodePte slot fl)) dev' := by
  obtain ⟨inside, free, total, used, -, writer⟩ := swapOutPage_some run
  refine ⟨?_, fun d' v' other entry => ?_, fun other taken => ?_⟩
  · rw [Mem.KernelClean, Mem.kernel_setPte own]
    exact kept.kernel
  · rw [Mem.slotAt_setPte own] at entry
    rw [total, used, writer]
    split at entry
    · rename_i same
      cases entry
      rw [same.1, same.2]
      exact ⟨inside, update_self .., update_self ..⟩
    · obtain ⟨small, taken, owner⟩ := kept.named d' v' other entry
      have apart : other ≠ slot := by
        intro same
        rw [same, free] at taken
        cases taken
      rw [update_of_ne apart, update_of_ne apart]
      exact ⟨small, taken, owner⟩
  · by_cases same : other = slot
    · exact ⟨d, v, by rw [Mem.slotAt_setPte own, if_pos ⟨rfl, rfl⟩, same]; rfl⟩
    rw [used, update_of_ne same] at taken
    obtain ⟨d', v', entry⟩ := kept.held other taken
    refine ⟨d', v', ?_⟩
    rw [Mem.slotAt_setPte own, if_neg, entry]
    rintro ⟨rfl, rfl⟩
    rw [Mem.slotAt, Mem.pteAt_of_own own, present] at entry
    cases entry

theorem Slots.swapIn {f : Nat} {fl : Flags} (kept : Slots m dev) (own : m.ownPte d v = some old)
    (named : m.slotAt d v = some slot) (present : fl.present = true) :
    Slots (m.setPte d v ⟨f, fl⟩) (dev.bitmapFree slot) := by
  obtain ⟨inside, -, owner⟩ := kept.named d v slot named
  have freed : dev.bitmapFree slot =
      { dev with used := update dev.used slot false } := by
    simp only [Device.bitmapFree, if_neg (Nat.not_le.mpr inside)]
  rw [freed]
  refine ⟨?_, fun d' v' other entry => ?_, fun other taken => ?_⟩
  · rw [Mem.KernelClean, Mem.kernel_setPte own]
    exact kept.kernel
  · rw [Mem.slotAt_setPte own] at entry
    split at entry
    · rw [Pte.slot_present present] at entry
      cases entry
    rename_i elsewhere
    obtain ⟨small, taken, writer⟩ := kept.named d' v' other entry
    have apart : other ≠ slot := by
      intro same
      rw [same, owner] at writer
      exact elsewhere ⟨(congrArg Prod.fst writer).symm, (congrArg Prod.snd writer).symm⟩
    refine ⟨small, ?_, writer⟩
    dsimp only
    rw [update_of_ne apart]
    exact taken
  · dsimp only at taken
    by_cases same : other = slot
    · rw [same, update_self] at taken
      cases taken
    rw [update_of_ne same] at taken
    obtain ⟨d', v', entry⟩ := kept.held other taken
    refine ⟨d', v', ?_⟩
    rw [Mem.slotAt_setPte own, if_neg, entry]
    rintro ⟨rfl, rfl⟩
    rw [named] at entry
    exact same (some.inj entry).symm

/-! ## Runs -/

theorem clockScan_some {d : DirId} {v : Nat} {after : Nat × Nat} {rounds : Nat} {hand : Nat × Nat}
    {accessed left : Nat → Bool}
    (run : clockScan m d rounds hand accessed = (some (v, after), left)) :
    ∃ e, m.ownPte d v = some e ∧ e.holds = true := by
  induction rounds generalizing hand accessed left with
  | zero => cases run
  | succ rounds ih =>
    rw [clockScan] at run
    generalize (if 1024 ≤ hand.1 then ((32, 0) : Nat × Nat) else hand) = place at run
    split at run
    · exact ih run
    rename_i e own
    split at run
    · exact ih run
    rename_i holds
    split at run
    · exact ih run
    · cases run
      exact ⟨e, own, by simpa using holds⟩

namespace Swapping

variable {s t : Swapping}

/-- `d` is in a fork that makes `c`. -/
def bears (s : Swapping) (d c : DirId) : Prop :=
  ∃ p ops kstack ustack code, s.procs d = some p ∧
    p.job = some (ops, Finish.birth c kstack ustack code)

/-- A directory under construction belongs to one fork and to no process. -/
structure Jobs (s : Swapping) : Prop where
  unborn : ∀ d c, s.bears d c → s.procs c = none ∧ (s.mem.root c).isSome
  apart : ∀ d d' c, s.bears d c → s.bears d' c → d = d'
  copying : ∀ d p ops fin op, s.procs d = some p → p.job = some (ops, fin) → op ∈ ops →
    op.copies = true → s.bears d (Finish.child d fin)

/-- Pages are swapped out of processes that can run, and of no others. -/
def Running (s : Swapping) : Prop :=
  ∀ d v slot, s.mem.slotAt d v = some slot → s.runs d = true

structure Kept (s : Swapping) : Prop where
  slots : Slots s.mem s.dev
  running : s.Running
  jobs : s.Jobs

theorem runs_congr (procs : t.procs = s.procs) (d : DirId) : t.runs d = s.runs d := by
  simp only [runs, procs]

theorem Jobs.congr (jobs : s.Jobs) (procs : t.procs = s.procs)
    (live : ∀ d, (t.mem.root d).isSome = (s.mem.root d).isSome) : t.Jobs := by
  have same : ∀ d c, t.bears d c ↔ s.bears d c := by
    intro d c
    simp only [bears, procs]
  refine ⟨fun d c bears => ?_, fun d d' c first second => ?_, fun d p ops fin op here => ?_⟩
  · rw [procs, live]
    exact jobs.unborn d c ((same d c).mp bears)
  · exact jobs.apart d d' c ((same d c).mp first) ((same d' c).mp second)
  · rw [same]
    rw [procs] at here
    exact jobs.copying d p ops fin op here

theorem Kept.still (kept : s.Kept) (same : Still s.mem t.mem) (procs : t.procs = s.procs)
    (dev : t.dev = s.dev) : t.Kept where
  slots := by rw [dev]; exact kept.slots.still same
  running d v slot entry := by
    rw [runs_congr procs]
    exact kept.running d v slot ((same.slots d v).symm.trans entry)
  jobs := kept.jobs.congr procs same.live

/-! ### Eviction and swap-in -/

/-- What `swap_evict_page` may change. -/
structure Evicted (s t : Swapping) (d : DirId) : Prop where
  procs : t.procs = s.procs
  slots : Slots t.mem t.dev
  stays : ∀ d' v slot, s.mem.slotAt d' v = some slot → t.mem.slotAt d' v = some slot
  fresh : ∀ d' v slot, t.mem.slotAt d' v = some slot → s.mem.slotAt d' v = some slot ∨ d' = d
  live : ∀ d', (t.mem.root d').isSome = (s.mem.root d').isSome

variable {written ok read : Bool} {q : Option Proc} {p : Proc}

theorem swapEvictPage_evicted (slots : Slots s.mem s.dev)
    (run : s.swapEvictPage d written = (ok, t)) : Evicted s t d := by
  unfold swapEvictPage at run
  split at run
  · cases run
    exact ⟨rfl, slots, fun _ _ _ => id, fun _ _ _ => inl, fun _ => rfl⟩
  rename_i v hand accessed scanned
  obtain ⟨e, own, holds⟩ := clockScan_some scanned
  dsimp only at run
  split at run
  · rename_i dev out
    cases run
    rw [swapOutPage_none out]
    exact ⟨rfl, slots, fun _ _ _ => id, fun _ _ _ => inl, fun _ => rfl⟩
  rename_i slot dev out
  cases run
  have entries := Mem.slotAt_setPte (e := swapEncodePte slot (s.mem.pteAt d v).flags) own
  have swapped := (slots.swapOut own
    (Pte.slot_of_holds holds) (s.mem.pteAt d v).flags out).move_clock hand
  refine ⟨rfl, swapped.still (freePage_still _), fun d' v' other entry => ?_,
    fun d' v' other entry => ?_, fun d' => ?_⟩
  · refine (entries d' v').trans ?_
    rw [if_neg, entry]
    rintro ⟨rfl, rfl⟩
    rw [Mem.slotAt, Mem.pteAt_of_own own, Pte.slot_of_holds holds] at entry
    cases entry
  · have before := (entries d' v').symm.trans entry
    split at before
    · rename_i same
      exact inr same.1
    · exact inl before
  · exact congrArg isSome (Mem.root_setPte own)

theorem Kept.evicted (kept : s.Kept) (runs : s.runs d = true) (evicted : Evicted s t d) :
    t.Kept where
  slots := evicted.slots
  running d' v slot entry := by
    rw [runs_congr evicted.procs]
    rcases evicted.fresh d' v slot entry with before | same
    · exact kept.running d' v slot before
    · rw [same]
      exact runs
  jobs := kept.jobs.congr evicted.procs evicted.live

theorem own_of_slot {slot : Nat} (clean : m.KernelClean) (entry : m.slotAt d v = some slot) :
    ∃ e, m.ownPte d v = some e := by
  rcases m.pteAt_cases d v with own | null | kernel
  · exact ⟨_, own⟩
  · rw [Mem.slotAt, null] at entry
    cases entry
  · rw [Mem.slotAt, kernel, clean v] at entry
    cases entry

theorem swapLoad_kept {slot f : Nat} (kept : s.Kept) (entry : s.mem.slotAt d v = some slot) :
    (s.swapLoad d v slot f read).Kept := by
  unfold swapLoad
  split
  · exact kept.still (freePage_still f) rfl rfl
  rename_i bytes dev loaded
  obtain ⟨old, own⟩ := own_of_slot kept.slots.kernel entry
  have freed : dev = s.dev.bitmapFree slot := by
    unfold Device.swapInPage at loaded
    split at loaded
    · cases loaded
    · cases loaded
      rfl
  have filled := kept.slots.still (fill_still f bytes)
  have own' : (s.mem.fill f bytes).ownPte d v = some old := own
  subst freed
  refine ⟨filled.swapIn own' entry rfl, fun d' v' other now => ?_, ?_⟩
  · have before := (Mem.slotAt_setPte own' d' v').symm.trans now
    split at before
    · cases before
    · exact kept.running d' v' other before
  · exact kept.jobs.congr rfl fun d' => congrArg isSome (Mem.root_setPte own')

theorem swapHandleFault_kept (kept : s.Kept) (runs : s.runs d = true) :
    (s.swapHandleFault d v written read).Kept := by
  unfold swapHandleFault
  split
  · exact kept
  rename_i slot entry
  split
  · rename_i taken
    have first := kalloc_still taken
    exact swapLoad_kept (kept.still first rfl rfl) ((first.slots d v).trans entry)
  rename_i taken
  have first := kalloc_still taken
  have before := kept.still (t := { s with mem := _ }) first rfl rfl
  split
  · rename_i evict
    exact before.evicted runs (swapEvictPage_evicted before.slots evict)
  rename_i evict
  have evicted := swapEvictPage_evicted before.slots evict
  have after := before.evicted runs evicted
  have still := evicted.stays d v slot ((first.slots d v).trans entry)
  split
  · rename_i again
    exact after.still (kalloc_still again) rfl rfl
  rename_i again
  have second := kalloc_still again
  exact swapLoad_kept (after.still second rfl rfl) ((second.slots d v).trans still)

theorem pageFault_kept {write : Bool} (kept : s.Kept) (runs : s.runs d = true) :
    (s.pageFault d v write written read).Kept := by
  unfold pageFault
  split
  · exact swapHandleFault_kept kept runs
  rename_i entry
  have before : s.mem.slotAt d v = none := by simpa using entry
  exact kept.still (pageFault_still before) rfl rfl

/-! ### Calls -/

theorem Running.none (running : s.Running) (stopped : s.runs d = false) (v : Nat) :
    s.mem.slotAt d v = none := by
  cases entry : s.mem.slotAt d v with
  | none => rfl
  | some slot =>
    have runs := running d v slot entry
    rw [stopped] at runs
    cases runs

theorem runs_of_none (none : s.procs d = none) : s.runs d = false := by
  simp only [runs, none]

theorem bears_other {d' : DirId} (procs : t.procs = update s.procs d q) (other : d' ≠ d) :
    t.bears d' c ↔ s.bears d' c := by
  simp only [bears, procs, update_of_ne other]

theorem runs_setProc {d' : DirId} (other : d' ≠ d) : (s.setProc d q).runs d' = s.runs d' := by
  simp only [runs, setProc, update_of_ne other]

theorem Running.setProc {mem : Mem} {objects : Nat → Memfd} (running : s.Running)
    (slots : ∀ d' v, mem.slotAt d' v = s.mem.slotAt d' v)
    (goes : ∀ v slot, s.mem.slotAt d v = some slot → (s.setProc d q).runs d = true) :
    ({ s with mem := mem, objects := objects }.setProc d q).Running := by
  intro d' v slot entry
  have before := (slots d' v).symm.trans entry
  by_cases same : d' = d
  · subst same
    exact goes v slot before
  · exact (runs_setProc same).trans (running d' v slot before)

theorem bears_setProc {q : Proc} :
    (s.setProc d (some q)).bears d c ↔
      ∃ ops kstack ustack code, q.job = some (ops, Finish.birth c kstack ustack code) := by
  constructor
  · rintro ⟨p, ops, kstack, ustack, code, found, birth⟩
    simp only [Swapping.setProc, update_self] at found
    cases found
    exact ⟨ops, kstack, ustack, code, birth⟩
  · rintro ⟨ops, kstack, ustack, code, birth⟩
    exact ⟨q, ops, kstack, ustack, code, by simp [Swapping.setProc], birth⟩

theorem Jobs.grown (jobs : s.Jobs) (here : s.procs d = some p) (d' : DirId) : ¬ s.bears d' d := by
  intro bears
  cases here.symm.trans (jobs.unborn d' d bears).1

theorem Jobs.replace (jobs : s.Jobs) (grown : ∀ d', ¬ s.bears d' d)
    (procs : t.procs = update s.procs d q)
    (live : ∀ c, c ≠ d → (s.mem.root c).isSome = true → (t.mem.root c).isSome = true)
    (bears : ∀ c, t.bears d c →
      s.bears d c ∨ (t.procs c = none ∧ (t.mem.root c).isSome) ∧ ∀ d', ¬ s.bears d' c)
    (copying : ∀ r ops fin op, q = some r → r.job = some (ops, fin) → op ∈ ops → op.copies = true →
      t.bears d (Finish.child d fin)) :
    t.Jobs := by
  have before : ∀ d' c, t.bears d' c → s.bears d' c ∨
      d' = d ∧ (t.procs c = none ∧ (t.mem.root c).isSome) ∧ ∀ d', ¬ s.bears d' c := by
    intro d' c now
    by_cases same : d' = d
    · subst same
      exact (bears c now).imp_right fun new => ⟨rfl, new⟩
    · exact inl ((bears_other procs same).mp now)
  refine ⟨fun d' c now => ?_, fun d' d'' c first second => ?_, fun d' r ops fin op found => ?_⟩
  · rcases before d' c now with was | ⟨-, new, -⟩
    · obtain ⟨unborn, root⟩ := jobs.unborn d' c was
      have other : c ≠ d := fun same => grown d' (same ▸ was)
      rw [procs, update_of_ne other]
      exact ⟨unborn, live c other root⟩
    · exact new
  · rcases before d' c first with was | ⟨rfl, -, nobody⟩
    · rcases before d'' c second with was' | ⟨-, -, nobody⟩
      · exact jobs.apart d' d'' c was was'
      · exact absurd was (nobody d')
    · rcases before d'' c second with was | ⟨same, -⟩
      · exact absurd was (nobody d'')
      · exact same.symm
  · by_cases same : d' = d
    · subst same
      rw [procs, update_self] at found
      exact copying r ops fin op found
    · rw [procs, update_of_ne same] at found
      intro job member copies
      exact (bears_other procs same).mpr (jobs.copying d' r ops fin op found job member copies)

theorem Jobs.settle {mem : Mem} {q : Proc} (jobs : s.Jobs) (grown : ∀ d', ¬ s.bears d' d)
    (job : q.job = none) (live : ∀ c, (mem.root c).isSome = (s.mem.root c).isSome) :
    ({ s with mem := mem }.setProc d (some q)).Jobs := by
  refine jobs.replace grown rfl (fun c _ root => (live c).trans root) (fun c now => ?_) ?_
  · obtain ⟨ops, _, _, _, birth⟩ := bears_setProc.mp now
    cases job.symm.trans birth
  · intro r ops fin op same job'
    cases same
    cases job.symm.trans job'

theorem allocStacks_still {ustacks : Mem.Stacks} (run : m.allocStacks = (ok, ustacks)) :
    Still m ustacks.mem := by
  obtain ⟨pmm, same⟩ := allocStacks_eq run
  rw [same]
  exact .of_same rfl rfl

theorem create_slots (clean : m.KernelClean) (free : m.dirs c = none)
    (run : m.vmmCreateAddressSpace c = (ok, m')) :
    (∀ d v, m'.slotAt d v = m.slotAt d v) ∧ m'.KernelClean ∧
      ∀ d, (m'.root d).isSome = ((m.root d).isSome || (ok && decide (d = c))) := by
  unfold Mem.vmmCreateAddressSpace at run
  split at run
  · rename_i taken
    cases run
    have still := kalloc_still taken
    exact ⟨still.slots, still.kernel clean, fun d => by rw [still.live d]; simp⟩
  rename_i f m₁ taken
  cases run
  have still := kalloc_still taken
  obtain ⟨-, rfl⟩ := kalloc_eq taken
  refine ⟨fun d v => ?_, still.kernel clean, fun d => ?_⟩
  · by_cases same : d = c
    · subst same
      simp only [Mem.slotAt, Mem.pteAt, update_self, Directory.lookup, kernelPde, free]
      exact clean v
    · simp only [Mem.slotAt, Mem.pteAt, update_of_ne same]
  · by_cases same : d = c
    · subst same
      simp [Mem.root]
    · simp [Mem.root, same]

theorem idle_some (idle : s.idle d = some p) : s.procs d = some p ∧ p.job = none := by
  unfold Swapping.idle at idle
  split at idle
  · cases idle
  rename_i q here
  split at idle
  · cases idle
  rename_i free
  cases idle
  exact ⟨here, by simpa using free⟩

theorem runs_of_idle (here : s.procs d = some p) (job : p.job = none) : s.runs d = true := by
  simp only [runs, here, job]

theorem enter_kept {ops : List Op} {fin : Finish} (kept : s.Kept) (here : s.procs d = some p)
    (plain : ∀ op ∈ ops, op.copies = false)
    (noBirth : ∀ c kstack ustack code, fin ≠ .birth c kstack ustack code)
    (dying : fin = .death → ∀ v, s.mem.slotAt d v = none) :
    (s.setProc d (some { p with job := some (ops, fin) })).Kept := by
  refine ⟨kept.slots, kept.running.setProc (fun _ _ => rfl) fun v slot entry => ?_, ?_⟩
  · simp only [runs, setProc, update_self]
    cases fin with
    | back | birth c kstack ustack code => rfl
    | death => cases (dying rfl v).symm.trans entry
  · refine kept.jobs.replace (kept.jobs.grown here) rfl (fun _ _ => id) ?_ ?_
    · intro c bears
      obtain ⟨ops', kstack, ustack, code, birth⟩ := bears_setProc.mp bears
      cases birth
      exact absurd rfl (noBirth c kstack ustack code)
    · intro r ops' fin' op same job member copies
      cases same
      cases job
      rw [plain op member] at copies
      cases copies

theorem beginFork_kept {code : Nat → UInt8} (kept : s.Kept) (here : s.procs d = some p)
    (freeDir : s.mem.dirs c = none) (freeProc : s.procs c = none)
    (run : s.beginFork d c p code = some t) : t.Kept := by
  unfold beginFork at run
  generalize forkOps = todo at run
  split at run
  · cases run
  rename_i m₁ created
  obtain ⟨slots, clean, live⟩ := create_slots kept.slots.kernel freeDir created
  split at run
  · cases run
  rename_i kstack m₂ taken
  split at run
  · cases run
  rename_i ustacks stacked
  cases run
  have still := (kalloc_still taken).trans (allocStacks_still stacked)
  have entries : ∀ d v, ustacks.mem.slotAt d v = s.mem.slotAt d v := fun d v =>
    (still.slots d v).trans (slots d v)
  have roots : ∀ d, (ustacks.mem.root d).isSome = ((s.mem.root d).isSome || decide (d = c)) :=
    fun d => (still.live d).trans ((live d).trans (by simp))
  have apart : c ≠ d := by
    rintro rfl
    cases here.symm.trans freeProc
  refine ⟨kept.slots.of_slots entries (still.kernel clean),
    kept.running.setProc entries fun _ _ _ => ?_, ?_⟩
  · simp [runs, setProc]
  refine kept.jobs.replace (kept.jobs.grown here) rfl (fun c' _ root => ?_) (fun c' now => ?_) ?_
  · exact (roots c').trans (by rw [root]; rfl)
  · obtain ⟨ops, _, _, _, birth⟩ := bears_setProc.mp now
    cases birth
    simp only [setProc, update_of_ne apart]
    refine inr ⟨⟨freeProc, by rw [roots]; simp⟩, fun d' bears => ?_⟩
    have root := (kept.jobs.unborn d' c bears).2
    simp [Mem.root, freeDir] at root
  · intro r ops fin op same job' _ _
    cases same
    cases job'
    exact bears_setProc.mpr ⟨_, _, _, _, rfl⟩

theorem freeEntries_same (entries : Nat → Pte) :
    (m.freeEntries entries).dirs = m.dirs ∧ (m.freeEntries entries).kernel = m.kernel := by
  unfold Mem.freeEntries
  refine countTo_invariant (fun _ (t : Mem) => t.dirs = m.dirs ∧ t.kernel = m.kernel)
    ⟨rfl, rfl⟩ ?_
  intro j t _ same
  split
  · exact same
  · exact same

theorem freeTable_same (p : Pde) :
    (m.freeTable p).dirs = m.dirs ∧ (m.freeTable p).kernel = m.kernel := by
  unfold Mem.freeTable
  split
  · exact ⟨rfl, rfl⟩
  · exact freeEntries_same _

theorem vmmFreeAddressSpace_still : Still (m.dropDir d) (m.vmmFreeAddressSpace d) := by
  unfold Mem.vmmFreeAddressSpace
  split
  · rename_i missing
    have same : update m.dirs d none = m.dirs := by
      rw [← missing]
      exact update_eq_self _ _
    exact .of_same same.symm rfl
  · rename_i dir here
    have loop := countTo_invariant (n := pdKernelEntries) (s := m)
      (fun _ t => t.dirs = m.dirs ∧ t.kernel = m.kernel) ⟨rfl, rfl⟩
      (fun i t _ same => ⟨(freeTable_same (dir.pde i)).1.trans same.1,
        (freeTable_same (dir.pde i)).2.trans same.2⟩)
    refine .of_same ?_ loop.2
    dsimp only
    rw [loop.1]
    rfl

theorem dropDir_slots (before : ∀ v, m.slotAt d v = none) (d' : DirId) (v : Nat) :
    (m.dropDir d).slotAt d' v = m.slotAt d' v := by
  by_cases same : d' = d
  · subst same
    rw [before v]
    simp [Mem.slotAt, Mem.pteAt, Mem.dropDir]
  · simp [Mem.slotAt, Mem.pteAt, Mem.dropDir, same]

theorem finish_kept {fin : Finish} (kept : s.Kept) (here : s.procs d = some p)
    (job : p.job = some ([], fin)) : (s.finish d p fin).Kept := by
  cases fin with
  | back =>
    refine ⟨kept.slots, kept.running.setProc (fun _ _ => rfl) fun _ _ _ => ?_,
      kept.jobs.settle (kept.jobs.grown here) rfl fun _ => rfl⟩
    simp [runs, setProc]
  | birth c kstack ustack code =>
    have bears : s.bears d c := ⟨p, [], kstack, ustack, code, here, job⟩
    obtain ⟨unborn, -⟩ := kept.jobs.unborn d c bears
    have empty := kept.running.none (runs_of_none unborn)
    have synced := syncKernelMmio_still kept.slots.kernel empty
    have stacked := synced.trans (forkStack_still p.ustack ustack fun v => synced.none (empty v))
    have mapped := stacked.trans (mapTrampoline_still code fun v => stacked.none (empty v))
    unfold finish
    dsimp only
    generalize ((s.mem.syncKernelMmio c).forkStack c p.ustack ustack).mapTrampoline c code = m₁
      at mapped ⊢
    have running : ({ s with mem := m₁ }.setProc d (some { p with job := none })).Running :=
      kept.running.setProc mapped.slots fun _ _ _ => by simp [runs, setProc]
    have returned : ({ s with mem := m₁ }.setProc d (some { p with job := none })).Jobs :=
      kept.jobs.settle (kept.jobs.grown here) rfl mapped.live
    refine ⟨kept.slots.still mapped, running.setProc (fun _ _ => rfl) fun _ _ _ => ?_,
      returned.settle (fun d' now => ?_) rfl fun _ => rfl⟩
    · simp [runs, setProc]
    · by_cases same : d' = d
      · subst same
        obtain ⟨ops, _, _, _, birth⟩ := bears_setProc.mp now
        cases birth
      · have other := (bears_other (s := s) rfl same).mp now
        exact same (kept.jobs.apart d' d c other bears)
  | death =>
    have stopped : s.runs d = false := by simp only [runs, here, job]
    have empty := kept.running.none stopped
    have dropped : Still (s.mem.dropDir d)
        (if p.tracked then s.mem.vmmFreeAddressSpace d else s.mem.dropDir d) := by
      split
      · exact vmmFreeAddressSpace_still
      · exact .refl _
    have freed := dropped.trans (freePage_still p.kstack)
    have entries : ∀ d' v, _ = s.mem.slotAt d' v := fun d' v =>
      (freed.slots d' v).trans (dropDir_slots empty d' v)
    refine ⟨kept.slots.of_slots entries (freed.kernel kept.slots.kernel),
      kept.running.setProc entries fun v slot entry => ?_, ?_⟩
    · cases (empty v).symm.trans entry
    · refine kept.jobs.replace (kept.jobs.grown here) rfl (fun c other root => ?_) ?_ ?_
      · refine (freed.live c).trans ?_
        rw [Mem.root_dropDir, if_neg other]
        exact root
      · rintro c ⟨q, ops, kstack, ustack, code, found, birth⟩
        simp only [finish, setProc, update_self] at found
        cases found
      · intro r ops fin op same
        cases same

theorem tick_kept {call : List Op × Finish} (kept : s.Kept) (here : s.procs d = some p)
    (job : p.job = some call)
    (spares : ∀ op rest fin v, call = (op :: rest, fin) → op.page = some v →
      s.mem.slotAt d v = none) :
    (s.tick d p call).Kept := by
  obtain ⟨ops, fin⟩ := call
  cases ops with
  | nil => exact finish_kept kept here job
  | cons op rest =>
    rw [tick]
    split
    rename_i x more run
    have child : op.copies = true → ∀ v, s.mem.slotAt (Finish.child d fin) v = none := by
      intro copies
      have bears := kept.jobs.copying d p (op :: rest) fin op here job (mem_cons_self ..) copies
      exact kept.running.none (runs_of_none (kept.jobs.unborn d _ bears).1)
    have still : Still s.mem x.mem := op.run_still kept.slots.kernel
      (fun v page => spares op rest fin v rfl page) child run
    refine ⟨kept.slots.still still, kept.running.setProc still.slots fun v slot entry => ?_, ?_⟩
    · rw [← kept.running d v slot entry]
      simp only [runs, setProc, update_self, here, job]
      cases fin with
      | back | birth c kstack ustack code | death => rfl
    · have bearing : ∀ c, s.bears d c → ({ s with mem := x.mem, objects := x.objects }.setProc d
          (some { p with table := x.table, job := some (more ++ rest, fin) })).bears d c := by
        rintro c ⟨q, ops, kstack, ustack, code, found, birth⟩
        rw [here] at found
        cases found
        rw [job] at birth
        cases birth
        exact bears_setProc.mpr ⟨_, _, _, _, rfl⟩
      refine kept.jobs.replace (kept.jobs.grown here) rfl
        (fun c _ root => (still.live c).trans root) ?_ ?_
      · intro c bears
        obtain ⟨ops, kstack, ustack, code, birth⟩ := bears_setProc.mp bears
        cases birth
        exact inl ⟨p, _, _, _, _, here, job⟩
      · intro r ops fin' later same job' member copies
        cases same
        cases job'
        refine bearing _ ?_
        rcases mem_append.mp member with new | old
        · exact kept.jobs.copying d p (op :: rest) fin op here job (mem_cons_self ..)
            (Op.run_copies run new copies)
        · exact kept.jobs.copying d p (op :: rest) fin later here job
            (mem_cons_of_mem _ old) copies

/-! ### Every run -/

/-- The page whose entry the call of `d` copies or clears next. -/
def nextPage (s : Swapping) (d : DirId) : Option Nat :=
  match s.procs d with
  | none => none
  | some p => match p.job with
    | some (op :: _, _) => op.page
    | _ => none

/-- The step copies or drops no entry that is swapped out. -/
def Spares (s : Swapping) : Action → Prop
  | .tick d => ∀ v, s.nextPage d = some v → s.mem.slotAt d v = none
  | .exit d => ∀ v, s.mem.slotAt d v = none
  | _ => True

/-- Swapping has just been enabled: no page is out. -/
structure Start (s : Swapping) : Prop where
  kernel : s.mem.KernelClean
  resident : ∀ d v, s.mem.slotAt d v = none
  device : ∃ slots disk, s.dev = swapInit slots disk
  idle : ∀ d p, s.procs d = some p → p.job = none

def Step (s : Swapping) (a : Action) (t : Swapping) : Prop := s.step a = some t

/-- Every used slot is named by exactly one swapped-out entry of the live directories, and every
such entry names a used slot. -/
def SlotsOwned (s : Swapping) : Prop :=
  (∀ slot, s.dev.used slot = true →
    ∃! page : DirId × Nat, s.mem.slotAt page.1 page.2 = some slot) ∧
  ∀ d v slot, s.mem.slotAt d v = some slot → s.dev.used slot = true

/-- The slot that an entry names holds what was swapped out of that page. -/
def OwnBytes (s : Swapping) : Prop :=
  ∀ d v slot, s.mem.slotAt d v = some slot → s.dev.writer slot = (d, v)

theorem Start.kept (start : s.Start) : s.Kept := by
  obtain ⟨slots, disk, device⟩ := start.device
  have nobody : ∀ d c, ¬ s.bears d c := by
    rintro d c ⟨p, ops, kstack, ustack, code, found, birth⟩
    cases (start.idle d p found).symm.trans birth
  refine ⟨⟨start.kernel, fun d v slot entry => ?_, fun slot taken => ?_⟩,
    fun d v slot entry => ?_, ⟨fun d c bears => ?_, fun d d' c bears => ?_, ?_⟩⟩
  · cases (start.resident d v).symm.trans entry
  · rw [device] at taken
    cases taken
  · cases (start.resident d v).symm.trans entry
  · exact absurd bears (nobody d c)
  · exact absurd bears (nobody d c)
  · intro d p ops fin op found job
    cases (start.idle d p found).symm.trans job

theorem step_kept {a : Action} (kept : s.Kept) (spares : s.Spares a) (move : s.step a = some t) :
    t.Kept := by
  cases a with
  | touch d v =>
    rw [step] at move
    split at move
    · cases move
      exact kept.still (.refl _) rfl rfl
    · cases move
  | store d v offset b =>
    rw [step] at move
    split at move
    · cases move
      exact kept.still (fill_still _ _) rfl rfl
    · cases move
  | evict d written =>
    rw [step] at move
    split at move
    · rename_i runs
      cases move
      exact kept.evicted runs (swapEvictPage_evicted kept.slots rfl)
    · cases move
  | fault d v write written read =>
    obtain ⟨p, idle, move⟩ := bind_eq_some_iff.mp move
    obtain ⟨here, job⟩ := idle_some idle
    split at move
    · cases move
    · cases move
      exact pageFault_kept kept (runs_of_idle here job)
  | fork d c code =>
    obtain ⟨p, idle, move⟩ := bind_eq_some_iff.mp move
    obtain ⟨here, job⟩ := idle_some idle
    split at move
    · cases move
    rename_i free
    rw [not_or] at free
    exact beginFork_kept kept here (by simpa using free.1) (by simpa using free.2) move
  | munmap d addr length =>
    obtain ⟨p, idle, move⟩ := bind_eq_some_iff.mp move
    split at move
    · cases move
    cases move
    refine enter_kept kept (idle_some idle).1 ?_ nofun nofun
    intro op member
    rw [mem_singleton.mp member]
    rfl
  | exit d =>
    obtain ⟨p, idle, move⟩ := bind_eq_some_iff.mp move
    cases move
    refine enter_kept kept (idle_some idle).1 ?_ nofun fun _ => spares
    intro op member
    obtain ⟨i, -, rfl⟩ := mem_map.mp member
    rfl
  | tick d =>
    obtain ⟨p, here, move⟩ := bind_eq_some_iff.mp move
    obtain ⟨call, job, rfl⟩ := map_eq_some_iff.mp move
    refine tick_kept kept here job ?_
    rintro op rest fin v rfl page
    exact spares v (by simp only [nextPage, here, job, page])

theorem kept_of_reach (run : Reach Start (restrict Spares Step) s) : s.Kept :=
  invariant Kept (fun _ start => start.kept)
    (fun _ _ _ kept move => step_kept kept move.1 move.2) run

/-- In a run that copies and drops no swapped-out entry, slots and swapped-out entries correspond,
and a fault brings in what was swapped out of the same page. -/
theorem swap_slots_owned (run : Reach Start (restrict Spares Step) s) :
    s.SlotsOwned ∧ s.OwnBytes := by
  have kept := kept_of_reach run
  refine ⟨⟨fun slot taken => ?_, fun d v slot entry => (kept.slots.named d v slot entry).2.1⟩,
    fun d v slot entry => (kept.slots.named d v slot entry).2.2⟩
  obtain ⟨d, v, entry⟩ := kept.slots.held slot taken
  refine ⟨(d, v), entry, fun page names => ?_⟩
  have first := (kept.slots.named page.1 page.2 slot names).2.2
  have second := (kept.slots.named d v slot entry).2.2
  rw [second] at first
  exact first.symm

/-! ### Two processes with one page each -/

/-- A directory with one page, at the start of the mapping window. -/
def onePageDir (root frame : Nat) : Directory where
  frame := root
  pde i := if i = 256 then
      ⟨true, true, .own (root + 1) fun j => if j = 0 then ⟨frame, userFlags true⟩ else .null⟩
    else kernelPde

def twoProcs : Swapping where
  mem := {
    pmm := {
      used := fun f => f < 20006 || totalPages ≤ f
      refs := fun _ => 1
      hint := 20006
      exhausted := false
      saturated := false }
    page := fun f _ => UInt8.ofNat f
    kernel := identity
    dirs := fun d => if d = (1, 0) then some (onePageDir 20000 20002)
      else if d = (2, 0) then some (onePageDir 20003 20005) else none }
  objects _ := {}
  procs d := if d = (1, 0) ∨ d = (2, 0) then some {
      table := ⟨fun i => if i = 0 then ⟨true, mmapBase, 1, false, 0⟩ else {}, mmapBase + 1⟩
      ustack := fun _ => 0
      kstack := 0
      tracked := true }
    else none
  dev := swapInit 16 fun _ _ => 0
  accessed _ _ := false

theorem twoProcs_start : twoProcs.Start := by
  have lookup : ∀ root frame v, ((onePageDir root frame).lookup identity v).slot = none := by
    intro root frame v
    unfold Directory.lookup onePageDir
    dsimp only
    split
    · exact Pte.slot_present rfl
    rename_i f entries table
    split at table
    · cases table
      dsimp only
      split
      · exact Pte.slot_present rfl
      · rfl
    · cases table
  refine ⟨fun v => Pte.slot_present rfl, fun d v => ?_, ⟨16, _, rfl⟩, fun d p found => ?_⟩
  · simp only [Mem.slotAt, Mem.pteAt, twoProcs]
    by_cases first : d = (1, 0)
    · simp only [if_pos first]
      exact lookup _ _ v
    by_cases second : d = (2, 0)
    · simp only [if_neg first, if_pos second]
      exact lookup _ _ v
    · simp only [if_neg first, if_neg second]
      rfl
  · simp only [twoProcs] at found
    split at found
    · cases found
      rfl
    · cases found

/-- Both pages are swapped out. -/
theorem swap_slots_owned_two :
    ∃ s : Swapping, s.dev.used 0 = true ∧ s.dev.used 1 = true ∧ s.SlotsOwned ∧ s.OwnBytes := by
  let one := (twoProcs.swapEvictPage (1, 0) true).2
  have first : Reach Start (restrict Spares Step) one :=
    next (a := .evict (1, 0) true) (.start twoProcs_start) ⟨trivial, rfl⟩
  have second : Reach Start (restrict Spares Step) (one.swapEvictPage (2, 0) true).2 :=
    next (a := .evict (2, 0) true) first ⟨trivial, rfl⟩
  exact ⟨_, by decide +kernel, by decide +kernel, swap_slots_owned second⟩

/-- The first process forks while its page is swapped out, and the child's entry names the same
slot. When the parent has brought the page in, the second process gets the slot. -/
theorem forked_page_shares_slot :
    ∃ s : Swapping, Reach Start Step s ∧ ¬ s.SlotsOwned ∧ ¬ s.OwnBytes := by
  obtain ⟨s, reached, other, child, used, writer⟩ := exists_of_run _ step
    (fun _ _ _ move => move) twoProcs_start ([.evict (1, 0) true, .fork (1, 0) (3, 0) fun _ => 0] ++
      replicate 1026 (.tick (1, 0)) ++
      [.fault (1, 0) mmapBase false true true, .evict (2, 0) true])
    (fun s => s.mem.slotAt (2, 0) mmapBase = some 0 ∧ s.mem.slotAt (3, 0) mmapBase = some 0 ∧
      s.dev.used 0 = true ∧ s.dev.writer 0 = ((2, 0), mmapBase)) (by decide +kernel)
  refine ⟨s, reached, fun owned => ?_, fun own => ?_⟩
  · obtain ⟨page, -, only⟩ := owned.1 0 used
    have same := (only ((2, 0), mmapBase) other).trans (only ((3, 0), mmapBase) child).symm
    exact absurd same (by decide)
  · have wrote := own (3, 0) mmapBase 0 child
    rw [writer] at wrote
    exact absurd wrote (by decide)

end Swapping

end CactKernel.Memory
