import CactKernel.Memory.MachineRuns
import CactKernel.Memory.Regions
import CactKernel.Memory.Holders

/-! # Pages that no call touches

A set of pages that the calls of a run keep off stays as the kernel mapped it, in
every directory. Two sets matter: the pages below user space and above it, which
are the kernel's, and the pages whose numbers are those of allocatable frames, which
the kernel uses to write a frame through its physical address. -/

set_option autoImplicit false

namespace CactKernel.Memory

open Lib Mem Option Function Nat

namespace Machine

variable {s s' : Machine} {p : Nat} {t : Task} {a : Action} {pages : Nat → Prop}

def Booted (s : Machine) : Prop := ∃ map page, s = boot map page

def Step (s : Machine) (a : Action) (s' : Machine) : Prop := s.step a = some s'

/-- The call takes none of the pages. A fault on one of them is harmless outside the window in
which the stack grows. -/
def KeepsOff (pages : Nat → Prop) (s : Machine) (a : Action) : Prop :=
  ∀ v, pages v → s.range a v → (∃ p write, a = .fault p v write) ∧ inStackWindow v = false

/-- A range that is unmapped does not reach around the top of the address space. -/
def NoWrap (s : Machine) : Action → Prop
  | .munmap p addr length =>
    ∀ t, s.tasks p = some t →
      (t.table.find (Vm.unmapTest (addr / pageSize) (pagesOf length))).isSome = true →
      addr / pageSize + pagesOf length < addressPages
  | _ => True

/-- The pages are the kernel's in every directory, and no region covers one. -/
structure Shielded (pages : Nat → Prop) (s : Machine) : Prop where
  good : s.Good
  spared : Spared identity pages s.mem
  regions : ∀ v, s.Regioned v → ¬ pages v

theorem boot_good (map : List MmapEntry) (page : Nat → Nat → UInt8) : (boot map page).Good where
  tidy := by
    refine ⟨fun d v e own => ?_, fun d i f own => ?_, fun v => ⟨rfl, rfl, fun _ => rfl⟩⟩
    · cases own
    · cases own
  dirs d := by
    refine ⟨fun isOpen => ?_, fun ⟨t, task, _⟩ => ?_⟩
    · cases isOpen
    · cases task
  tables p t task := by cases task

theorem Shielded.start (pages : Nat → Prop) (map : List MmapEntry) (page : Nat → Nat → UInt8) :
    Shielded pages (boot map page) where
  good := boot_good map page
  spared := by
    refine ⟨fun v _ => rfl, fun d v e _ own => ?_⟩
    cases own
  regions v regioned := by
    obtain ⟨p, t, task, -⟩ := regioned
    cases task

/-! ## One step -/

variable {v : Nat}

theorem munmap_covers {addr length : Nat} {d : DirId} (bounded : t.table.Bounded)
    (noWrap : (t.table.find (Vm.unmapTest (addr / pageSize) (pagesOf length))).isSome = true →
      addr / pageSize + pagesOf length < addressPages)
    (covered : ((s.vm t).doMunmap d addr length).2.table.Covers v) : t.table.Covers v := by
  cases found : t.table.find (Vm.unmapTest (addr / pageSize) (pagesOf length)) with
  | none =>
    have failed : (s.vm t).table.find (Vm.unmapTest (addr / 4096) (pagesOf length)) = none := found
    unfold Vm.doMunmap at covered
    dsimp only at covered
    rw [failed] at covered
    split at covered
    · exact covered
    · exact covered
  | some i =>
    rw [found] at noWrap
    exact doMunmap_covers (x := s.vm t) bounded (noWrap rfl) covered

theorem TableAfter.covers {table : MmapTable} (noWrap : s.NoWrap a)
    (bounded : t.table.Bounded) (after : s.TableAfter a t table) (covered : table.Covers v) :
    t.table.Covers v ∨ s.range a v := by
  rcases after with same | changed
  · rw [same] at covered
    exact .inl covered
  cases a with
  | mmap q args =>
    obtain ⟨task, result⟩ := changed
    rw [result] at covered
    exact (doMmap_covers (x := s.vm t) bounded covered).imp id fun inside => ⟨t, task, inside⟩
  | munmap q addr length =>
    obtain ⟨task, -, result⟩ := changed
    rw [result] at covered
    exact .inl (munmap_covers bounded (noWrap t task) covered)
  | _ => exact changed.elim

theorem step_regioned (good : s.Good) (noWrap : s.NoWrap a)
    (move : s.step a = some s') (regioned : s'.Regioned v) : s.Regioned v ∨ s.range a v := by
  obtain ⟨q, u, task, covered⟩ := regioned
  by_cases keeps : keepsSpaces a
  · obtain ⟨t, found, after⟩ := (step_same keeps move).tables q u task
    exact (after.covers noWrap (good.tables q t found) covered).imp
      (fun old => ⟨q, t, found, old⟩) id
  left
  have replaced : ∀ {r new}, Replaces s s' r new → s.Regioned v := by
    intro r new replaces
    rw [replaces.tasks] at task
    by_cases here : q = r
    · rw [here, update_self] at task
      exact replaces.regions u v task covered
    · rw [update_of_ne here] at task
      exact ⟨q, u, task, covered⟩
  cases a with
  | spawn p img =>
    obtain ⟨-, new, -, replaces⟩ := spawn_replaces move
    exact replaced replaces
  | fork p c code =>
    obtain ⟨-, new, -, replaces⟩ := fork_replaces good move
    exact replaced replaces
  | exec p img =>
    obtain ⟨t, new, -, -, replaces⟩ := exec_replaces move
    exact replaced replaces
  | exit p =>
    obtain ⟨t, -, replaces⟩ := exit_replaces move
    exact replaced replaces
  | _ => exact absurd trivial keeps

/-- A fault on a page that is mapped as the kernel left it changes nothing. -/
theorem pageFault_identity {m : Mem} {d : DirId} {write : Bool}
    (entry : m.pteAt d v = identity v) (outside : inStackWindow v = false) :
    m.pageFault d v write = m := by
  unfold pageFault
  simp [entry, identity, outside]

theorem Shielded.pteAt (shielded : Shielded pages s) (task : s.tasks p = some t)
    (page : pages v) : s.mem.pteAt (p, t.gen) v = identity v := by
  have live : (s.mem.root (p, t.gen)).isSome = true := (shielded.good.dirs _).mpr ⟨t, task, rfl⟩
  cases here : s.mem.dirs (p, t.gen) with
  | none => simp [root, here] at live
  | some dir => exact shielded.spared.pteAt here page

theorem Shielded.not_inherited (shielded : Shielded pages s) (page : pages v) :
    ¬ s.inherited a v := by
  have notCustom : ¬ s.mem.Custom v := by
    rintro ⟨d, e, own, changed⟩
    rw [shielded.spared.kernel v page] at changed
    exact changed (shielded.spared.entries d v e page own)
  have notCovered : ∀ q, ¬ ∃ t, s.tasks q = some t ∧ t.table.Covers v := by
    rintro q ⟨t, task, covered⟩
    exact shielded.regions v ⟨q, t, task, covered⟩ page
  cases a with
  | fork p c code | exit p => exact fun inherited => inherited.elim notCustom (notCovered p)
  | exec p img => exact notCustom
  | _ => exact id

theorem Shielded.fault {write : Bool} (shielded : Shielded pages s) (page : pages v)
    (outside : inStackWindow v = false) (move : s.step (.fault p v write) = some s') : s' = s := by
  rw [step, Machine.fault] at move
  split at move
  · cases move
  rename_i t task
  split at move
  · cases move
  · rw [pageFault_identity (shielded.pteAt task page) outside] at move
    exact (some.inj move).symm

theorem Shielded.next (shielded : Shielded pages s) (mine : s.ForksMine a) (noWrap : s.NoWrap a)
    (keepsOff : KeepsOff pages s a) (move : s.step a = some s') : Shielded pages s' := by
  by_cases harmless : ∃ p v write, a = .fault p v write ∧ pages v
  · obtain ⟨p, v, write, isFault, page⟩ := harmless
    subst isFault
    rw [shielded.fault page (keepsOff v page rfl).2 move]
    exact shielded
  have free : ∀ v, pages v → ¬ s.range a v := by
    intro v page taken
    obtain ⟨⟨p, write, isFault⟩, -⟩ := keepsOff v page taken
    exact harmless ⟨p, v, write, isFault, page⟩
  obtain ⟨steps, good⟩ := step_steps shielded.good mine move
  refine ⟨good, ?_, fun v regioned page => ?_⟩
  · refine steps.invariant (fun w => Spared identity pages w.mem) shielded.spared ?_
    intro l w w' within micro spared
    refine micro.spared (fun v isPage page => ?_) spared
    exact (within.page v isPage).elim (free v page) (shielded.not_inherited page)
  · exact (step_regioned shielded.good noWrap move regioned).elim
      (fun before => shielded.regions v before page) (free v page)

/-! ## A small program

One segment of one page, loaded at a page boundary. -/

def sampleWord (n : Nat) : List UInt8 :=
  [UInt8.ofNat n, UInt8.ofNat (n / 256), UInt8.ofNat (n / 65536), UInt8.ofNat (n / 16777216)]

def sampleBytes (vaddr : Nat) : List UInt8 :=
  [0x7F, 0x45, 0x4C, 0x46, 1, 1, 1, 0, 0, 0, 0, 0, 0, 0, 0, 0, 2, 0, 3, 0, 1, 0, 0, 0] ++
    sampleWord vaddr ++ sampleWord 52 ++ sampleWord 0 ++ sampleWord 0 ++
    [52, 0, 32, 0, 1, 0, 0, 0, 0, 0, 0, 0] ++
    sampleWord 1 ++ sampleWord 0 ++ sampleWord vaddr ++ sampleWord 0 ++ sampleWord 84 ++
    sampleWord 84 ++ sampleWord 5 ++ sampleWord 0

def sampleFile (vaddr : Nat) : File := ⟨84, fun k => (sampleBytes vaddr).getD k 0, fun _ => 0⟩

def sampleImage (vaddr : Nat) : Image where
  file := sampleFile vaddr
  stack _ _ := 0
  code _ := 0

theorem sample_loads (loads : (sampleImage 0x08048000).loads v) : v = 0x8048 := by
  rcases loads with ⟨h, i, ph, header, small, entry, -, -, low, high⟩ | ⟨ld, none, -⟩
  · have isHeader : (sampleFile 0x08048000).header =
        some ⟨elfMagic, 1, 1, 1, 3, 0x08048000, 52, 32, 1⟩ := by decide
    change (sampleFile 0x08048000).header = some h at header
    rw [isHeader] at header
    cases header
    have first : i = 0 := lt_one_iff.mp small
    subst first
    have isEntry : (sampleFile 0x08048000).phdr ⟨elfMagic, 1, 1, 1, 3, 0x08048000, 52, 32, 1⟩ 0 =
        some ⟨1, 0, 0x08048000, 84, 84⟩ := by decide
    change (sampleFile 0x08048000).phdr _ 0 = some ph at entry
    rw [isEntry] at entry
    cases entry
    change 0x8048 ≤ v at low
    change v < 0x8049 at high
    omega
  · cases none

theorem sample_inside (taken : (sampleImage 0x08048000).loads v ∨ ImagePage v) :
    userStartPage ≤ v ∧ v < totalPages := by
  rcases taken with loaded | trampoline | ⟨i, small, isStack⟩
  · rw [sample_loads loaded]
    decide
  · rw [trampoline]
    decide
  rw [isStack]
  exact ⟨le_trans (by decide : userStartPage ≤ ustackPage) (le_add_right _ _),
    ustack_low small⟩

/-! ## The kernel's part of the address space -/

/-- Pages below `USER_SPACE_START` and from `KERNEL_BASE` on. -/
def Reserved (v : Nat) : Prop := v < addressPages ∧ (v < userStartPage ∨ totalPages ≤ v)

/-- The call takes no page of the kernel's part. -/
def SparesKernel (s : Machine) (a : Action) : Prop := s.ForksMine a ∧ KeepsOff Reserved s a

/-- The kernel's part of every address space is as the directory was created with. -/
def KernelMapped (s : Machine) : Prop :=
  ∀ p t v, s.tasks p = some t → Reserved v → s.mem.pteAt (p, t.gen) v = identity v

/-- An unmapped range that reaches the top of the address space takes its last page. -/
theorem KeepsOff.noWrap (keepsOff : KeepsOff Reserved s a) (move : s.step a = some s') :
    s.NoWrap a := by
  cases a with
  | munmap p addr length =>
    intro t task found
    by_contra wraps
    rw [step, munmap, task] at move
    dsimp only at move
    split at move
    · cases move
    rename_i address
    have low : addr / pageSize < addressPages := by
      unfold pageSize addressPages
      omega
    have last : Reserved (addressPages - 1) := by
      refine ⟨by decide, .inr (by decide)⟩
    have taken : s.range (.munmap p addr length) (addressPages - 1) := by
      refine ⟨⟨t, task, found⟩, addressPages - 1 - addr / pageSize, by omega, ?_⟩
      have isLast : addr / pageSize + (addressPages - 1 - addr / pageSize) = addressPages - 1 :=
        Nat.add_sub_cancel' (Nat.le_sub_one_of_lt low)
      rw [isLast]
      decide
    obtain ⟨⟨q, write, isFault⟩, -⟩ := keepsOff _ last taken
    cases isFault
  | _ => trivial

theorem kernel_mapped (run : Reach Booted (restrict SparesKernel Step) s) : s.KernelMapped := by
  have shielded : Shielded Reserved s := by
    refine run.invariant (Shielded Reserved) ?_ ?_
    · rintro s ⟨map, page, isBoot⟩
      rw [isBoot]
      exact .start Reserved map page
    · rintro s a s' before ⟨⟨mine, keepsOff⟩, move⟩
      exact before.next mine (keepsOff.noWrap move) keepsOff move
  intro p t v task reserved
  exact shielded.pteAt task reserved

theorem sample_spawned (s₀ : Machine)
    (spawned : (s₀.step (.spawn 1 (sampleImage 0x08048000))).isSome = true) :
    ∃ s, s₀.step (.spawn 1 (sampleImage 0x08048000)) = some s ∧ (s.tasks 1).isSome = true := by
  obtain ⟨s, move⟩ := isSome_iff_exists.mp spawned
  have result : s₀.spawn 1 (sampleImage 0x08048000) = some s := move
  obtain ⟨-, new, -, replaces⟩ := spawn_replaces result
  refine ⟨s, move, ?_⟩
  rw [replaces.tasks, update_self]
  rfl

theorem kernel_mapped_sample :
    ∃ s : Machine, (s.tasks 1).isSome = true ∧ s.KernelMapped := by
  obtain ⟨s, move, live⟩ := sample_spawned (boot [] fun _ _ => 0) (by decide +kernel)
  have spares : SparesKernel (boot [] fun _ _ => 0) (.spawn 1 (sampleImage 0x08048000)) := by
    refine ⟨trivial, fun v reserved taken => ?_⟩
    obtain ⟨low, high⟩ := sample_inside taken
    rcases reserved.2 with below | above
    · exact absurd below (not_lt.mpr low)
    · exact absurd high (not_lt.mpr above)
  have run : Reach Booted (restrict SparesKernel Step) s :=
    .next (.start ⟨_, _, rfl⟩) ⟨spares, move⟩
  exact ⟨s, live, kernel_mapped run⟩

/-- A process maps a page at 0x1000 with `MAP_FIXED`: the entry of the kernel's page is gone. -/
theorem fixed_page_replaces_kernel : ∃ s : Machine, Reach Booted Step s ∧ ¬ s.KernelMapped := by
  obtain ⟨s, reached, task, changed⟩ := Reach.exists_of_run Booted step
    (fun _ _ _ move => move) ⟨[], fun _ _ => 0, rfl⟩ [Action.spawn 1 (sampleImage 0x08048000),
      .mmap 1 { hint := 0x1000, length := 4096, priv := true, fixed := true, anon := true }]
    (fun s => (s.tasks 1).map Task.gen = some 0 ∧ s.mem.pteAt (1, 0) 1 ≠ identity 1)
    (by decide +kernel)
  refine ⟨s, reached, fun mapped => ?_⟩
  obtain ⟨t, task, gen⟩ := map_eq_some_iff.mp task
  have same := mapped 1 t 1 task ⟨by decide, .inl (by decide)⟩
  rw [gen] at same
  exact changed same

/-! ## Frames and the pages of their addresses -/

/-- The frames that the allocator has at first. -/
def Ram (map : List MmapEntry) (f : Nat) : Prop := (initMemoryManager map).used f = false

/-- The call takes no page whose number is that of an allocatable frame, and gives the process no
page of the kernel. -/
def SparesFrames (map : List MmapEntry) (s : Machine) (a : Action) : Prop :=
  s.ForksMine a ∧ s.NoWrap a ∧ KeepsOff (Ram map) s a ∧ ¬ s.irregular a .adopt

/-- A frame that may be allocated is seen at its own address in every address space. -/
def IdentityAccess (s : Machine) : Prop :=
  ∀ p t f, s.tasks p = some t → s.mem.pmm.used f = false → s.mem.translate (p, t.gen) f = some f

theorem boot_held (map : List MmapEntry) (page : Nat → Nat → UInt8) (o : Owner) :
    (boot map page).world.held o = none := by
  cases o with
  | entry d v | table d i | root d => rfl
  | pin x =>
    cases x with
    | stack p | object h i | segment s i => rfl
  | hand f => simp [World.held, world]

theorem boot_homed (map : List MmapEntry) (page : Nat → Nat → UInt8) :
    Homed (Ram map) (boot map page).world.held (boot map page).mem.pmm := by
  refine ⟨fun f free => free, fun o f holds => ?_⟩
  rw [boot_held] at holds
  cases holds

variable {f : Nat}

theorem lent_homed {ram : Nat → Prop} (homed : Homed ram s.world.held s.mem.pmm)
    (lent : s.lent a f) : ram f := by
  cases a with
  | exec p img => exact homed.free f lent
  | shmAt p id addr readOnly round =>
    obtain ⟨valid, i, small, isFrame⟩ := lent
    refine homed.held (.pin (.segment (id - 1) i)) f ?_
    have segValid : (s.segments (id - 1)).valid = true := (Bool.and_eq_true_iff.mp valid).2
    change (s.segments (id - 1)).frame i = some f
    rw [Segment.frame, if_pos ⟨segValid, small⟩, isFrame]
  | _ => exact lent.elim

theorem homed_next {ram : Nat → Prop} (good : s.Good) (mine : s.ForksMine a)
    (own : ¬ s.irregular a .adopt) (homed : Homed ram s.world.held s.mem.pmm)
    (move : s.step a = some s') : Homed ram s'.world.held s'.mem.pmm := by
  have steps := (step_steps good mine move).1
  have kept : Tidy s'.world.mem ∧ Homed ram s'.world.held s'.world.mem.pmm := by
    refine steps.invariant (fun w => Tidy w.mem ∧ Homed ram w.held w.mem.pmm) ⟨good.tidy, homed⟩ ?_
    rintro l w w' within micro ⟨tidy, before⟩
    have notAdopt : l.kind ≠ .adopt := by
      intro isAdopt
      rcases within.kind with isPlain | irregular
      · rw [isPlain] at isAdopt
        cases isAdopt
      · exact own (isAdopt ▸ irregular)
    exact ⟨micro.tidy tidy, (micro.trade tidy).homed notAdopt
      (fun f isLent => lent_homed homed (within.frame f isLent)) before⟩
  exact kept.2

theorem identity_access {map : List MmapEntry}
    (run : Reach (fun s => ∃ page, s = boot map page) (restrict (SparesFrames map) Step) s) :
    s.IdentityAccess := by
  have kept : Shielded (Ram map) s ∧ Homed (Ram map) s.world.held s.mem.pmm := by
    refine run.invariant
      (fun s => Shielded (Ram map) s ∧ Homed (Ram map) s.world.held s.mem.pmm) ?_ ?_
    · rintro s ⟨page, isBoot⟩
      rw [isBoot]
      exact ⟨.start _ map page, boot_homed map page⟩
    · rintro s a s' ⟨shielded, homed⟩ ⟨⟨mine, noWrap, keepsOff, own⟩, move⟩
      exact ⟨shielded.next mine noWrap keepsOff move, homed_next shielded.good mine own homed move⟩
  intro p t f task free
  have entry := kept.1.pteAt task (kept.2.free f free)
  rw [Mem.translate, entry]
  rfl

/-- A machine with 64 frames from 48 MiB on. -/
def smallMap : List MmapEntry := [⟨0x3000000, 0x40000, 1⟩]

theorem smallMap_ram (isRam : Ram smallMap f) : f < 0x3040 := by
  obtain ⟨-, e, isEntry, -, -, high⟩ := (init_free_iff (by simp [smallMap]) (by decide) f).mp isRam
  rw [smallMap, List.mem_singleton] at isEntry
  rw [isEntry] at high
  unfold pageSize pciHoleStart at high
  dsimp only at high
  omega

theorem identity_access_small : ∃ s : Machine, (s.tasks 1).isSome = true ∧ s.IdentityAccess := by
  obtain ⟨s, move, live⟩ := sample_spawned (boot smallMap fun _ _ => 0) (by decide +kernel)
  have spares : SparesFrames smallMap (boot smallMap fun _ _ => 0)
      (.spawn 1 (sampleImage 0x08048000)) := by
    refine ⟨trivial, trivial, fun v isRam taken => ?_, nofun⟩
    have below : v < userStartPage := lt_trans (smallMap_ram isRam) (by decide)
    exact absurd below (not_lt.mpr (sample_inside taken).1)
  exact ⟨s, live, identity_access (.next (.start ⟨_, rfl⟩) ⟨spares, move⟩)⟩

/-- Eleven frames at 48 MiB and sixteen from 0x08048000 on. -/
def splitMap : List MmapEntry := [⟨0x3000000, 0xB000, 1⟩, ⟨0x08048000, 0x10000, 1⟩]

theorem splitMap_ram (isRam : Ram splitMap f) : f < 0x300B ∨ 0x8048 ≤ f := by
  obtain ⟨-, e, isEntry, -, low, high⟩ :=
    (init_free_iff (by simp [splitMap]) (by decide) f).mp isRam
  rw [splitMap, List.mem_cons, List.mem_singleton] at isEntry
  unfold pageSize pciHoleStart at *
  rcases isEntry with first | second
  · rw [first] at high
    dsimp only at high
    omega
  · rw [second] at low
    dsimp only at low
    omega

/-- The program at 0x08048000 has taken the eleven; the next frame is the one with the address of
its first page. -/
theorem next_frame_behind_program :
    ∃ (s : Machine) (t : Task) (f : Nat), Reach Booted Step s ∧ s.tasks 1 = some t ∧
      s.mem.pmm.kalloc.1 = some f ∧ s.mem.translate (1, t.gen) f ≠ some f ∧ ¬ s.IdentityAccess := by
  obtain ⟨s, move, task, hint, free, elsewhere⟩ := exists_of_any
    ((boot splitMap fun _ _ => 0).step (.spawn 1 (sampleImage 0x08048000))) (fun s =>
      (s.tasks 1).map Task.gen = some 0 ∧ s.mem.pmm.hint = 0x300B ∧
      s.mem.pmm.used 0x8048 = false ∧ s.mem.translate (1, 0) 0x8048 = some 0x3006)
    (by decide +kernel)
  obtain ⟨t, task, gen⟩ := map_eq_some_iff.mp task
  have hidden : s.mem.translate (1, t.gen) 0x8048 ≠ some 0x8048 := by
    rw [gen, elsewhere]
    decide
  have homed : Homed (Ram splitMap) s.world.held s.mem.pmm := by
    refine homed_next (boot_good splitMap _) ?_ ?_ (boot_homed splitMap _) move
    · trivial
    · exact nofun
  have next : s.mem.pmm.kalloc.1 = some 0x8048 := by
    cases result : s.mem.pmm.kalloc with
    | mk r pm =>
      cases r with
      | none =>
        have full := Pmm.scan_none (Pmm.kalloc_none result).1 0x8048
        rw [hint, free] at full
        exact absurd (full (by decide) (by decide)) (by decide)
      | some f =>
        obtain ⟨low, -, isFree, before⟩ := Pmm.scan_some (Pmm.kalloc_some result).1
        rw [hint] at low before
        have notBefore : ¬ 0x8048 < f := by
          intro after
          rw [before 0x8048 (by decide) after] at free
          cases free
        have isNext : f = 0x8048 := by
          have inside := splitMap_ram (homed.free f isFree)
          omega
        rw [isNext]
  refine ⟨s, t, 0x8048, ?_, task, next, hidden, fun access => hidden (access 1 t 0x8048 task free)⟩
  exact .next (.start ⟨_, _, rfl⟩) move

end Machine

end CactKernel.Memory
