import CactKernel.Memory.ImageChains

/-! # Every step is a chain

`Machine.world` is the machine as the small changes see it. A step of the machine
is a chain of small changes within `Machine.scope`, which says for each call which
pages it works on and which of the irregular changes it may make. -/

set_option autoImplicit false

namespace CactKernel.Memory

open Lib Mem Option Function Bool Or Steps Micro

/-! ## The machine as a world -/

variable {w : World}

namespace Machine

variable {s : Machine} {p : Nat} {t : Task}

/-- The page lies in a `MAP_SHARED` region of the process whose directory it is. -/
def shared (s : Machine) (d : DirId) (v : Nat) : Prop :=
  ∃ t, s.tasks d.1 = some t ∧ t.gen = d.2 ∧ t.table.Shared v

def kstacks (s : Machine) (p : Nat) : Option Nat := (s.tasks p).map Task.kstack

def pins (s : Machine) : Pin → Option Nat := pinsOf s.objects s.segments s.kstacks

def world (s : Machine) : World := ⟨s.mem, s.pins, s.shared, 0⟩

theorem shared_of_task (task : s.tasks p = some t) (v : Nat) :
    s.shared (p, t.gen) v ↔ t.table.Shared v := by
  constructor
  · rintro ⟨t', task', -, inside⟩
    rw [task] at task'
    cases some.inj task'
    exact inside
  · intro inside
    exact ⟨t, task, rfl, inside⟩

theorem shared_self (task : s.tasks p = some t) :
    s.shared = update s.shared (p, t.gen) t.table.Shared := by
  funext d v
  rw [update_apply]
  split
  · rename_i here
    rw [here]
    exact propext (shared_of_task task v)
  · rfl

theorem shared_set {s' : Machine} {g : Nat} {new : Option Task} {f : Nat → Prop}
    (tasks : s'.tasks = s.tasks) (before : ∀ t, s.tasks p = some t → t.gen = g)
    (after : ∀ h v, (∃ t, new = some t ∧ t.gen = h ∧ t.table.Shared v) ↔ h = g ∧ f v) :
    (s'.setTask p new).shared = update s.shared (p, g) f := by
  funext ⟨q, h⟩ v
  rw [update_apply]
  refine propext ?_
  unfold shared setTask
  dsimp only
  rw [tasks, update_apply]
  by_cases here : q = p
  · rw [if_pos here, after, here]
    by_cases same : h = g
    · simp [same]
    · have none : ¬ ∃ t, s.tasks p = some t ∧ t.gen = h ∧ t.table.Shared v :=
        fun ⟨t, task, gen, _⟩ => same (gen.symm.trans (before t task))
      simp [same, none]
  · simp [here]

theorem shared_setTask (s' : Machine) (t' : Task) (task : s.tasks p = some t)
    (tasks : s'.tasks = s.tasks)
    (gen : t'.gen = t.gen) :
    (s'.setTask p (some t')).shared = update s.shared (p, t.gen) t'.table.Shared := by
  refine shared_set tasks (fun t₀ task₀ => by cases task.symm.trans task₀; rfl) fun h v => ?_
  simp [gen, eq_comm]

theorem kstacks_setTask (s' : Machine) (t' : Task) (task : s.tasks p = some t)
    (tasks : s'.tasks = s.tasks)
    (kstack : t'.kstack = t.kstack) : (s'.setTask p (some t')).kstacks = s.kstacks := by
  funext q
  unfold kstacks setTask
  dsimp only
  rw [tasks, update_apply]
  split
  · rename_i here
    rw [here, task]
    simp [kstack]
  · rfl

theorem setTask_world (t' : Task) (task : s.tasks p = some t) (gen : t'.gen = t.gen)
    (kstack : t'.kstack = t.kstack) (table : t'.table = t.table) :
    (s.setTask p (some t')).world = s.world := by
  have sharedNow := shared_setTask s t' task rfl gen
  have kstacksNow := kstacks_setTask s t' task rfl kstack
  unfold world pins
  rw [sharedNow, kstacksNow, table, ← shared_self task]
  rfl

theorem steps_setTask {sc : Scope} (t' : Task) (task : s.tasks p = some t)
    (gen : t'.gen = t.gen) (kstack : t'.kstack = t.kstack) (table : t'.table = t.table)
    (steps : Steps sc w s.world) : Steps sc w (s.setTask p (some t')).world := by
  rw [setTask_world t' task gen kstack table]
  exact steps

theorem putVm_world (task : s.tasks p = some t) (x : Vm) :
    (s.putVm p t x).world = x.world s.segments s.kstacks
      (update s.shared (p, t.gen) x.table.Shared) := by
  unfold putVm world pins Vm.world
  have sharedNow := shared_setTask { s with mem := x.mem, objects := x.objects }
    { t with table := x.table } task rfl rfl
  have kstacksNow := kstacks_setTask { s with mem := x.mem, objects := x.objects }
    { t with table := x.table } task rfl rfl
  rw [sharedNow, kstacksNow]
  rfl

end Machine

/-! ## What a step works on -/

/-- Some directory has an entry of its own for the page. -/
def Mem.Custom (m : Mem) (v : Nat) : Prop := ∃ d e, m.ownPte d v = some e ∧ e ≠ m.kernel v

namespace Machine

/-- The trampoline and the stack of a new image. -/
def ImagePage (v : Nat) : Prop := v = trampolinePage ∨ ∃ i < userStackPages, v = ustackPage + i

def AttachedPage (s : Machine) (att : Attachment) (v : Nat) : Prop :=
  att.id ≠ 0 ∧ s.segValid att.id = true ∧
    ∃ j < (s.segments (att.id - 1)).numPages, v = wrapPage (att.base + j)

/-- `n` pages from `a` on, around the top of the address space. -/
def WrappedRange (a n v : Nat) : Prop := ∃ i < n, v = wrapPage (a + i)

/-- The pages that a call takes from its arguments, when it accepts them. -/
def range (s : Machine) : Action → Nat → Prop
  | .spawn _ img => fun v => img.loads v ∨ ImagePage v
  | .exec p img => fun v => img.loads v ∨ ImagePage v ∨
      ∃ t, s.tasks p = some t ∧ ∃ i, s.AttachedPage (t.attachments i) v
  | .fork _ _ _ => ImagePage
  | .brk p newBrk => fun v =>
    ∃ t, s.tasks p = some t ∧ t.brkStart ≤ newBrk ∧ newBrk - t.brkStart ≤ 16 * 1024 * 1024 ∧
      pagesOf t.brkCurrent ≤ v ∧ v < pagesOf newBrk
  | .mmap p args => fun v => ∃ t, s.tasks p = some t ∧ (s.vm t).mmapPages args v
  | .munmap p addr length => fun v =>
    (∃ t, s.tasks p = some t ∧
      (t.table.find (Vm.unmapTest (addr / pageSize) (pagesOf length))).isSome = true) ∧
    WrappedRange (addr / pageSize) (pagesOf length) v
  | .mprotect p addr length _ => fun v =>
    (∃ t, s.tasks p = some t ∧ mprotectTest t.table (addr / pageSize) t.brkStart
      (pagesOf t.brkCurrent * pageSize) = true) ∧
    WrappedRange (addr / pageSize) (pagesOf length) v
  | .fault _ u _ => fun v => v = u
  | .shmAt p id addr _ round => fun v => ∃ t u, s.tasks p = some t ∧ s.segValid id = true ∧
      s.shmChooseVa t (s.segments (id - 1)).numPages addr round = some u ∧
      WrappedRange u (s.segments (id - 1)).numPages v
  | .shmDt p addr => fun v => ∃ t i, s.tasks p = some t ∧
      (t.attachments i).base * pageSize = addr ∧ s.AttachedPage (t.attachments i) v
  | _ => fun _ => False

/-- The pages that a call copies or tears down: those that processes have made their own, and
the regions of the process. -/
def inherited (s : Machine) : Action → Nat → Prop
  | .fork p _ _ => fun v => s.mem.Custom v ∨ ∃ t, s.tasks p = some t ∧ t.table.Covers v
  | .exit p => fun v => s.mem.Custom v ∨ ∃ t, s.tasks p = some t ∧ t.table.Covers v
  | .exec _ _ => s.mem.Custom
  | _ => fun _ => False

/-- A page of the PCI hole is named. -/
def NamesHigh (s : Machine) (a : Action) : Prop := ∃ v, totalPages ≤ v ∧ s.range a v

/-- A page of a change of rights is present and the kernel's. -/
def Adopts (s : Machine) (p addr length : Nat) : Prop :=
  ∃ t v, s.tasks p = some t ∧ WrappedRange (addr / pageSize) (pagesOf length) v ∧
    v < totalPages ∧ (s.mem.pteAt (p, t.gen) v).flags.present = true ∧
    (s.mem.pteAt (p, t.gen) v).flags.user = false

/-- A page of a change of rights is read-only, outside the shared regions, and its frame is not
known to be the page's alone. -/
def Promotes (s : Machine) (p addr length : Nat) : Prop :=
  ∃ t v, s.tasks p = some t ∧ WrappedRange (addr / pageSize) (pagesOf length) v ∧
    v < totalPages ∧ (s.mem.pteAt (p, t.gen) v).holds = true ∧
    (s.mem.pteAt (p, t.gen) v).flags.rw = false ∧
    s.mem.pmm.refs (s.mem.pteAt (p, t.gen) v).frame ≠ 1 ∧ ¬ t.table.Shared v

/-- The irregular changes that a call may make. -/
def irregular (s : Machine) (a : Action) (k : Kind) : Prop :=
  match a with
  | .spawn _ _ => k = .borrow ∧ s.NamesHigh a
  | .exec p _ => k = .borrow ∧ (s.NamesHigh a ∨
      ∃ t i, s.tasks p = some t ∧ (t.attachments i).id ≠ 0)
  | .brk _ _ => k = .borrow ∧ s.NamesHigh a
  | .mmap p args => k = .orphan ∧ ∃ t, s.tasks p = some t ∧ (s.vm t).MmapSevers args
  | .munmap p addr length =>
    k = .orphan ∧ ∃ t, s.tasks p = some t ∧ t.table.Severed (addr / pageSize) (pagesOf length)
  | .mprotect p addr length write =>
    k = .adopt ∧ s.Adopts p addr length ∨ k = .promote ∧ write = true ∧ s.Promotes p addr length
  | .shmAt _ _ _ _ _ => k = .borrow
  | _ => False

def opened (s : Machine) (a : Action) (d : DirId) : Prop :=
  match a with
  | .spawn p _ => d = (p, 0)
  | .exec p _ => ∃ t, s.tasks p = some t ∧ d = (p, t.gen + 1)
  | .fork _ c _ => d = (c, 0)
  | _ => False

def closed (s : Machine) (a : Action) (d : DirId) : Prop :=
  match a with
  | .exec p _ => ∃ t, s.tasks p = some t ∧ d = (p, t.gen)
  | .exit p => ∃ t, s.tasks p = some t ∧ d = (p, t.gen)
  | _ => False

/-- Frames that a call may map without a reference. -/
def lent (s : Machine) (a : Action) (f : Nat) : Prop :=
  match a with
  | .exec _ _ => s.mem.pmm.used f = false
  | .shmAt _ id _ _ _ => s.segValid id = true ∧
      ∃ i < (s.segments (id - 1)).numPages, (s.segments (id - 1)).pages i = f
  | _ => False

def scope (s : Machine) (a : Action) : Scope where
  pages v := s.range a v ∨ s.inherited a v
  kinds := s.irregular a
  opens := s.opened a
  closes := s.closed a
  frames := s.lent a

/-! ## Invariants of the machine -/

structure Good (s : Machine) : Prop where
  tidy : Tidy s.mem
  dirs : ∀ d, (s.mem.root d).isSome = true ↔ ∃ t, s.tasks d.1 = some t ∧ t.gen = d.2
  tables : ∀ p t, s.tasks p = some t → t.table.Bounded

/-- The private regions of a forking process have no page that is present and the kernel's. -/
def ForksMine (s : Machine) : Action → Prop
  | .fork p _ _ => ∀ t, s.tasks p = some t → ∀ v, t.table.Private v → s.mem.Mine (p, t.gen) v
  | _ => True

variable {s : Machine} {p : Nat} {t : Task}

theorem Good.absent (good : s.Good) {g : Nat} (other : ∀ t, s.tasks p = some t → t.gen ≠ g) :
    s.mem.dirs (p, g) = none := by
  cases here : s.mem.dirs (p, g) with
  | none => rfl
  | some dir =>
    obtain ⟨t, task, gen⟩ := (good.dirs (p, g)).mp (by simp [root, here])
    exact absurd gen (other t task)

theorem Good.aside (good : s.Good) {a : Action}
    (inherits : ∀ v, s.mem.Custom v → (s.scope a).pages v) :
    Aside (s.scope a) s.mem.kernel s.mem := by
  refine ⟨⟨fun _ _ => rfl, ?_⟩, fun v low => (good.tidy.inert_kernel low).1⟩
  intro d v e outside own
  by_contra different
  exact outside (inherits v ⟨d, e, own, different⟩)

/-! ## Calls of one process -/

variable {s' : Machine}

variable {v addr : Nat} {sc : Scope}

variable {write : Bool}

theorem fault_steps (good : s.Good) (run : s.fault p v write = some s') :
    Steps (s.scope (.fault p v write)) s.world s'.world := by
  unfold fault at run
  split at run
  · cases run
  split at run
  · cases run
  · cases run
    exact pageFault_steps (w := s.world) good.tidy (inl rfl) write

theorem store_steps {offset : Nat} {b : UInt8} (run : s.store p v offset b = some s') :
    Steps (s.scope (.store p v offset b)) s.world s'.world := by
  unfold store at run
  split at run
  · cases run
  split at run
  · cases run
    exact plain (fill (w := s.world) _ _)
  · cases run

theorem takes_of_range {a : Action} (inside : s.range a v)
    (allowed : s.NamesHigh a → s.irregular a .borrow) : (s.scope a).Takes v :=
  ⟨inl inside, fun high => allowed ⟨v, high, inside⟩⟩

theorem growHeap_steps {d : DirId} (tidy : Tidy w.mem) (takes : sc.Takes v) :
    Steps sc w { w with mem := (growHeap d v w.mem).2 } := by
  unfold growHeap
  split
  · rename_i m run
    exact plain (starve run)
  · rename_i f m run
    exact mapFresh_steps tidy run d takes.1 takes.2 _ true

theorem brk_steps {newBrk : Nat} (good : s.Good) (run : s.brk p newBrk = some s') :
    Steps (s.scope (.brk p newBrk)) s.world s'.world := by
  unfold brk at run
  split at run
  · cases run
  rename_i t task
  split at run
  · cases run
    exact refl
  have grown : Steps (s.scope (.brk p newBrk)) s.world { s.world with
      mem := (countWhile (fun i m => growHeap (p, t.gen) (pagesOf t.brkCurrent + i) m)
        (pagesOf newBrk - pagesOf t.brkCurrent) s.mem).2 } := by
    refine loopWhilePlain (w := s.world) good.tidy fun i m small tidy => ?_
    refine growHeap_steps (w := { s.world with mem := m }) tidy
      (takes_of_range ?_ fun h => ⟨rfl, h⟩)
    exact ⟨t, task, by omega, by omega, by omega, by omega⟩
  dsimp only at run
  split at run
  · rename_i m whole
    cases run
    rw [whole] at grown
    exact steps_setTask _ task rfl rfl rfl grown
  · rename_i m broken
    cases run
    rw [broken] at grown
    exact grown

theorem mmap_steps {args : MmapArgs} (good : s.Good) (run : s.mmap p args = some s') :
    Steps (s.scope (.mmap p args)) s.world s'.world := by
  obtain ⟨t, task, rfl⟩ := map_eq_some_iff.mp run
  rw [putVm_world task]
  have mapped : Steps (s.scope (.mmap p args)) ((s.vm t).world s.segments s.kstacks
      (update s.shared (p, t.gen) (s.vm t).table.Shared)) _ :=
    doMmap_steps good.tidy (good.tables p t task) (fun u inside => inl ⟨t, task, inside⟩)
      (fun severs => ⟨rfl, t, task, severs⟩)
  rw [show (s.vm t).table = t.table from rfl, ← shared_self task] at mapped
  exact mapped

theorem munmap_steps {length : Nat} (good : s.Good) (run : s.munmap p addr length = some s') :
    Steps (s.scope (.munmap p addr length)) s.world s'.world := by
  unfold munmap at run
  split at run
  · cases run
  rename_i t task
  split at run
  · cases run
  cases run
  rw [putVm_world task]
  cases found : t.table.find (Vm.unmapTest (addr / pageSize) (pagesOf length)) with
  | none =>
    have same : ((s.vm t).doMunmap (p, t.gen) addr length).2 = s.vm t := by
      have failed :
          (s.vm t).table.find (Vm.unmapTest (addr / 4096) (pagesOf length)) = none := found
      unfold Vm.doMunmap
      dsimp only
      rw [failed]
      split
      · rfl
      · rfl
    rw [same, show (s.vm t).table = t.table from rfl, ← shared_self task]
    exact refl
  | some i =>
    have named : ∃ t, s.tasks p = some t ∧
        (t.table.find (Vm.unmapTest (addr / pageSize) (pagesOf length))).isSome = true :=
      ⟨t, task, by rw [found]; rfl⟩
    have unmapped : Steps (s.scope (.munmap p addr length)) ((s.vm t).world s.segments s.kstacks
        (update s.shared (p, t.gen) (s.vm t).table.Shared)) _ :=
      doMunmap_reshare good.tidy (fun i small => inl ⟨named, i, small, rfl⟩)
        (fun severed => ⟨rfl, t, task, severed⟩)
    rw [show (s.vm t).table = t.table from rfl, ← shared_self task] at unmapped
    exact unmapped

theorem mprotect_steps {length : Nat} (good : s.Good)
    (run : s.mprotect p addr length write = some s') :
    Steps (s.scope (.mprotect p addr length write)) s.world s'.world := by
  obtain ⟨t, task, rfl⟩ := map_eq_some_iff.mp run
  dsimp only
  unfold doMprotect
  split
  · exact refl
  split
  · exact refl
  rename_i tested
  have accepted : ∃ t, s.tasks p = some t ∧ mprotectTest t.table (addr / pageSize) t.brkStart
      (pagesOf t.brkCurrent * pageSize) = true := ⟨t, task, by simpa using tested⟩
  have start : ∀ u, u < totalPages → (s.scope (.mprotect p addr length write)).pages u →
      Protects (s.scope (.mprotect p addr length write)) s.shared s.mem (p, t.gen) write u := by
    intro u low inside
    have named : WrappedRange (addr / pageSize) (pagesOf length) u := (inside.resolve_right id).2
    refine ⟨fun present supervisor => inl ⟨rfl, t, u, task, named, low, present, supervisor⟩, ?_⟩
    intro holds writes readOnly several alone
    refine inr ⟨rfl, writes, t, u, task, named, low, holds, readOnly, several, ?_⟩
    exact fun inShared => alone ((shared_of_task task u).mpr inShared)
  refine (loopWhile (w := s.world)
    (fun _ m => ∀ u, u < totalPages → (s.scope (.mprotect p addr length write)).pages u →
      Protects (s.scope (.mprotect p addr length write)) s.shared m (p, t.gen) write u)
    good.tidy start ?_).1
  intro i m small tidy before
  have one := protectPage_steps (w := { s.world with mem := m }) tidy before
    (inl ⟨accepted, i, small, rfl⟩)
  exact ⟨one.1, fun _ => one.2⟩

/-! ## Objects and segments -/

theorem objects_steps {objects : Nat → Memfd}
    (same : pinsOf objects s.segments s.kstacks = s.pins) :
    Steps sc s.world (World.mk s.mem (pinsOf objects s.segments s.kstacks) s.shared 0) := by
  rw [same]
  exact refl

theorem memfdCreate_steps : Steps sc s.world s.memfdCreate.world := by
  unfold memfdCreate
  split
  · exact refl
  rename_i i found
  have invalid : (s.objects (i + 1)).valid = false := by
    have test := List.find?_some found
    simpa using test
  refine objects_steps (pinsOf_update fun k => ?_)
  simp [Memfd.frame, invalid]

theorem memfdRef_steps (h : Nat) : Steps sc s.world (s.memfdRef h).world := by
  unfold memfdRef
  split
  · exact objects_steps (pinsOf_update fun k => rfl)
  · exact refl

theorem memfdClose_steps (h : Nat) : Steps sc s.world (s.memfdClose h).world := by
  unfold memfdClose
  split
  · exact maybeFreeLocked_steps fun i => rfl
  · exact refl

theorem memfdTruncate_steps (h size : Nat) :
    Steps sc s.world (s.memfdTruncate h size).2.world := by
  unfold memfdTruncate
  split
  · exact refl
  split
  · rename_i valid
    by_cases longer : (s.objects h).size < size
    · simp only [longer, if_true]
      cases run : growLocked s.mem (s.objects h) (pagesOf size) with
      | mk done rest =>
        obtain ⟨m, o⟩ := rest
        have grown : Steps sc s.world _ := growLocked_steps valid.2.2 run
        cases done with
        | true =>
          have same : pinsOf (update s.objects h { o with size }) s.segments s.kstacks =
              pinsOf (update s.objects h o) s.segments s.kstacks :=
            pinsOf_update_congr fun i => rfl
          rw [← same] at grown
          exact grown
        | false =>
          rw [growLocked_failed run, update_eq_self] at grown
          exact grown
    · simp only [longer, if_false, if_true]
      exact objects_steps (pinsOf_update fun i => rfl)
  · exact refl

variable {id : Nat}

theorem segValid_valid (valid : s.segValid id = true) :
    (s.segments (id - 1)).valid = true := by
  unfold segValid at valid
  exact (and_eq_true_iff.mp valid).2

theorem shmGet_steps (size : Nat) : Steps sc s.world (s.shmGet size).world := by
  unfold shmGet
  split
  · exact refl
  rename_i i found
  have invalid : (s.segments i).valid = false := by
    have test := List.find?_some found
    simpa using test
  split
  · exact refl
  have whole := growing_loop sc s.pins s.shared s.mem (s.segments i).pages 0 (pagesOf size)
  split
  · rename_i g full
    rw [full] at whole
    exact segNew_steps invalid whole _ rfl rfl rfl
  rename_i g broken
  rw [broken] at whole
  obtain ⟨k, -, growing⟩ := whole
  have undone := growing.undo
  simp only [Nat.zero_add] at undone
  exact undone

theorem updateSegment_world (i : Nat) (seg : Segment)
    (same : ∀ k, seg.frame k = (s.segments i).frame k) :
    world { s with segments := update s.segments i seg } = s.world := by
  change (⟨s.mem, pinsOf s.objects (update s.segments i seg) s.kstacks, s.shared, 0⟩ : World) =
    s.world
  rw [pinsOf_segment same]
  rfl

/-- A segment changes and may then be freed. -/
theorem segment_steps {i : Nat} {freed : Prop} [Decidable freed] (seg : Segment)
    (same : ∀ k, seg.frame k = (s.segments i).frame k) (valid : seg.valid = true) :
    Steps sc s.world (if freed then segFree { s with segments := update s.segments i seg } i
      else { s with segments := update s.segments i seg }).world := by
  have before := updateSegment_world i seg same
  split
  · rw [← before]
    refine segFree_steps ?_ _ rfl
    simp only [update_self]
    exact valid
  · rw [before]
    exact refl

theorem detach_steps (valid : s.segValid id = true) : Steps sc s.world (s.detach id).world :=
  segment_steps _ (fun _ => rfl) (segValid_valid valid)

theorem shmRemove_steps (id : Nat) : Steps sc s.world (s.shmRemove id).world := by
  unfold shmRemove
  split
  · exact refl
  rename_i isValid
  exact segment_steps _ (fun _ => rfl) (segValid_valid (by simpa using isValid))

/-! ## Attachments -/

theorem vmmMap_borrow {d : DirId} {f : Nat} (tidy : Tidy w.mem)
    (page : sc.pages v) (borrow : sc.kinds .borrow) (frame : sc.frames f) :
    Steps sc w { w with mem := w.mem.vmmMap d v f (userFlags write) } := by
  by_cases low : v < totalPages
  · rcases vmmMap_prepare tidy d low page f (userFlags write) with
      failed | ⟨m, now, steps, own, result, -⟩
    · exact failed
    rw [result]
    refine steps.trans (Steps.single ?_ (Micro.borrow own (holds_mapFlags rfl)))
    refine Label.within_kind page (inr borrow) ?_
    intro g isFrame
    cases isFrame
    exact frame
  · exact vmmMap_high tidy d (Nat.le_of_not_lt low) page borrow f (userFlags_simple write)

theorem shmAt_steps {readOnly round : Bool} (good : s.Good)
    (run : s.shmAt p id addr readOnly round = some s') :
    Steps (s.scope (.shmAt p id addr readOnly round)) s.world s'.world := by
  unfold shmAt at run
  split at run
  · cases run
  rename_i t task
  dsimp only at run
  split at run
  · cases run
    exact refl
  split at run
  · cases run
    exact refl
  rename_i slot _ isValid
  have valid : s.segValid id = true := by simpa using isValid
  split at run
  · cases run
    exact refl
  rename_i v chosen
  cases run
  have mapped : Steps (s.scope (.shmAt p id addr readOnly round)) s.world { s.world with
      mem := countTo (fun i m => m.vmmMap (p, t.gen) (wrapPage (v + i))
        ((s.segments (id - 1)).pages i) (userFlags !readOnly))
        (s.segments (id - 1)).numPages s.mem } := by
    refine loopPlain (w := s.world) good.tidy fun i m small tidy => ?_
    refine vmmMap_borrow (w := { s.world with mem := m }) tidy ?_ rfl ⟨valid, i, small, rfl⟩
    exact inl ⟨t, v, task, valid, chosen, i, small, rfl⟩
  refine steps_setTask _ task rfl rfl rfl ?_
  exact (updateSegment_world (s := { s with mem := _ }) (id - 1)
    { s.segments (id - 1) with nattch := (s.segments (id - 1)).nattch + 1 }
      fun k => rfl).symm ▸ mapped

theorem shmDt_steps (good : s.Good) (run : s.shmDt p addr = some s') :
    Steps (s.scope (.shmDt p addr)) s.world s'.world := by
  unfold shmDt at run
  split at run
  · cases run
  rename_i t task
  split at run
  · cases run
    exact refl
  rename_i i found
  dsimp only at run
  have same := setTask_world (s := s)
    { t with attachments := update t.attachments i {} } task rfl rfl rfl
  have test := List.find?_some found
  simp only [and_eq_true, decide_eq_true_eq] at test
  split at run
  · cases run
    rw [same]
    exact refl
  rename_i isValid
  rw [not_eq_true', not_eq_false] at isValid
  have valid : s.segValid (t.attachments i).id = true := isValid
  cases run
  have unmapped : Steps (s.scope (.shmDt p addr)) s.world { s.world with
      mem := s.mem.shmUnmapFrom (p, t.gen) (t.attachments i).base
        (s.segments ((t.attachments i).id - 1)).numPages } := by
    refine shmUnmapFrom_steps (w := s.world) good.tidy fun j small => ?_
    exact inl ⟨t, i, task, test.1, test.2, valid, j, small, rfl⟩
  have target : ∀ m, world { s.setTask p
      (some { t with attachments := update t.attachments i {} }) with mem := m } =
        { s.world with mem := m } := by
    intro m
    rw [← same]
    rfl
  rw [← target] at unmapped
  exact unmapped.trans (detach_steps valid)

end Machine

end CactKernel.Memory
