import CactKernel.Memory.Refine
import CactKernel.Memory.Allocator

/-! # Creation, fork, exec and exit as chains

The calls that open and close address spaces, with the directories that they leave
open. -/

set_option autoImplicit false

namespace CactKernel.Memory

open Lib Mem Option Function Nat Or Multiset Steps Micro

/-! ## Tasks that come and go -/

namespace Machine

variable {s s' : Machine} {p : Nat} {t : Task}

theorem kstacks_put (s : Machine) (p : Nat) (t : Option Task) :
    (s.setTask p t).kstacks = update s.kstacks p (t.map Task.kstack) := by
  funext q
  unfold kstacks setTask
  dsimp only
  rw [update_apply, update_apply]
  split
  · rfl
  · rfl

theorem pinsOf_stack (objects : Nat → Memfd) (segments : Nat → Segment) (kstacks : Nat → Option Nat)
    (p : Nat) (k : Option Nat) : pinsOf objects segments (update kstacks p k) =
      update (pinsOf objects segments kstacks) (.stack p) k := by
  funext x
  cases x with
  | stack q =>
    by_cases same : q = p
    · subst same
      simp [pinsOf]
    · have other : Pin.stack q ≠ Pin.stack p := fun clash => same (Pin.stack.inj clash)
      simp [pinsOf, update_of_ne same, update_of_ne other]
  | object h i | segment j i => rfl

theorem shared_replace (tasks : s'.tasks = s.tasks) (task : s.tasks p = some t) (new : Option Task)
    (apart : ∀ t', new = some t' → t'.gen ≠ t.gen ∧ ∀ v, ¬ t'.table.Shared v) :
    (s'.setTask p new).shared = update s.shared (p, t.gen) fun _ => False := by
  refine shared_set tasks (fun t₀ task₀ => by cases task.symm.trans task₀; rfl) fun h v => ?_
  simp only [and_false, iff_false]
  rintro ⟨t', isNew, -, inside⟩
  exact (apart t' isNew).2 v inside

theorem shared_new (tasks : s'.tasks = s.tasks) (free : s.tasks p = none) (t : Task) :
    (s'.setTask p (some t)).shared = update s.shared (p, t.gen) t.table.Shared := by
  refine shared_set tasks (fun t₀ task₀ => nomatch free.symm.trans task₀) fun h v => ?_
  simp [eq_comm]

theorem shared_free (free : s.tasks p = none) (g v : Nat) : ¬ s.shared (p, g) v := by
  rintro ⟨t, task, -⟩
  rw [free] at task
  cases task

theorem kstacks_congr (tasks : s'.tasks = s.tasks) : s'.kstacks = s.kstacks := by
  unfold kstacks
  rw [tasks]

theorem shared_congr (tasks : s'.tasks = s.tasks) : s'.shared = s.shared := by
  unfold shared
  rw [tasks]

variable {sc : Scope} {w : World} {d : DirId}

theorem steps_replaced (new : Option Task) (task : s.tasks p = some t) (tasks : s'.tasks = s.tasks)
    (apart : ∀ t', new = some t' → t'.gen ≠ t.gen ∧ ∀ v, ¬ t'.table.Shared v)
    (steps : Steps sc w ⟨s'.mem, update (pinsOf s'.objects s'.segments s.kstacks) (.stack p)
      (new.map Task.kstack), update s.shared (p, t.gen) fun _ => False, 0⟩) :
    Steps sc w (s'.setTask p new).world := by
  unfold world pins
  rw [shared_replace tasks task new apart, kstacks_put, kstacks_congr tasks, pinsOf_stack]
  exact steps

theorem steps_created (new : Task) (free : s.tasks p = none) (tasks : s'.tasks = s.tasks)
    (steps : Steps sc w ⟨s'.mem, update (pinsOf s'.objects s'.segments s.kstacks) (.stack p)
      (some new.kstack), update s.shared (p, new.gen) new.table.Shared, 0⟩) :
    Steps sc w (s'.setTask p (some new)).world := by
  unfold world pins
  rw [shared_new tasks free new, kstacks_put, kstacks_congr tasks, pinsOf_stack]
  exact steps

/-! ## exit -/

variable {m : Mem}

theorem bare_of_absent (absent : m.dirs d = none) (v : Nat) : m.Bare d v := by
  intro e own
  simp [ownPte, absent] at own

theorem vmmFreeAddressSpace_dirs (m : Mem) (d : DirId) :
    (m.vmmFreeAddressSpace d).dirs d = none := by
  unfold vmmFreeAddressSpace
  split
  · assumption
  · simp

theorem close_steps {ref : Nat → Pte} (tidy : Tidy w.mem) (aside : Aside sc ref w.mem)
    (closes : sc.closes d) :
    Steps sc w { w with
      mem := w.mem.vmmFreeAddressSpace d
      shared := update w.shared d fun _ => False } := by
  have freed : Steps sc w { w with mem := w.mem.vmmFreeAddressSpace d } :=
    vmmFreeAddressSpace_steps tidy closes fun v e own holds => aside.page_of_holds tidy own holds
  refine freed.trans (reshare_steps d _ (inl fun v _ _ => ?_))
  exact bare_of_absent (vmmFreeAddressSpace_dirs w.mem d) v

theorem forget_steps (closes : sc.closes d) :
    Steps sc w { w with
      mem := w.mem.dropDir d
      shared := update w.shared d fun _ => False } := by
  refine (single (Label.within_closes closes) (forget d)).trans
    (reshare_steps d _ (inl fun v _ _ => ?_))
  exact bare_of_absent (by simp [dropDir]) v

theorem exit_steps (good : s.Good) (run : s.exit p = some s') :
    Steps (s.scope (.exit p)) s.world s'.world ∧
      ∀ t, s.tasks p = some t → s'.mem.dirs (p, t.gen) = none := by
  unfold exit at run
  split at run
  · cases run
  rename_i t task
  cases run
  have closes : (s.scope (.exit p)).closes (p, t.gen) := ⟨t, task, rfl⟩
  have freed : Steps (s.scope (.exit p)) s.world
      (((s.vm t).mmapTableFree (p, t.gen)).world s.segments s.kstacks s.shared) :=
    mmapTableFree_steps (x := s.vm t) good.tidy (good.tables p t task)
      fun u covered => inr (inr ⟨t, task, covered⟩)
  have tidy := freed.tidy good.tidy
  have aside := (good.aside (a := .exit p) fun v custom => inr (inl custom)).steps freed
  generalize (s.vm t).mmapTableFree (p, t.gen) = x at freed tidy aside
  have emptied : Steps (s.scope (.exit p)) s.world ⟨
      if t.tracked then x.mem.vmmFreeAddressSpace (p, t.gen) else x.mem.dropDir (p, t.gen),
      pinsOf x.objects s.segments s.kstacks,
      update s.shared (p, t.gen) fun _ => False, 0⟩ := by
    refine freed.trans ?_
    split
    · exact close_steps (w := x.world s.segments s.kstacks s.shared) tidy aside closes
    · exact forget_steps (w := x.world s.segments s.kstacks s.shared) closes
  have gone : (if t.tracked then x.mem.vmmFreeAddressSpace (p, t.gen)
      else x.mem.dropDir (p, t.gen)).dirs (p, t.gen) = none := by
    split
    · exact vmmFreeAddressSpace_dirs _ _
    · simp [dropDir]
  have unpinned := emptied.trans (plain (unpin (x := .stack p) (f := t.kstack)
    (by simp [pinsOf, kstacks, task])))
  refine ⟨?_, ?_⟩
  · exact steps_replaced (s := s) none task rfl (by simp) unpinned
  · intro t' task'
    rw [task] at task'
    cases some.inj task'
    exact gone

/-! ## spawn -/

/-- A fresh directory: every table is the kernel's. -/
def Mem.Fresh (m : Mem) (d : DirId) : Prop := ∃ f, m.dirs d = some ⟨f, fun _ => kernelPde⟩

theorem create_steps (absent : w.mem.dirs d = none) (opens : sc.opens d)
    (run : w.mem.vmmCreateAddressSpace d = (true, m)) :
    Steps sc w { w with mem := m } ∧ Mem.Fresh m d := by
  unfold vmmCreateAddressSpace at run
  split at run
  · exact absurd (congrArg Prod.fst run) (by simp)
  rename_i f m' taken
  cases run
  have within : Label.Within { opens := some d } sc := by
    refine ⟨nofun, inl rfl, ?_, nofun, nofun⟩
    intro d' same
    cases same
    exact opens
  have free : m'.dirs d = none := by rw [kalloc_dirs taken]; exact absent
  refine ⟨?_, f, by simp⟩
  exact (plain (alloc taken)).trans
    (single within (openDir (w := { w with mem := m', hand := f ::ₘ w.hand }) free rfl))

theorem create_other {m' : Mem} {d' : DirId} {v : Nat} (other : d' ≠ d)
    (run : m.vmmCreateAddressSpace d = (true, m')) : m'.pteAt d' v = m.pteAt d' v := by
  unfold vmmCreateAddressSpace at run
  split at run
  · exact absurd (congrArg Prod.fst run) (by simp)
  rename_i f m₁ taken
  obtain ⟨-, rfl⟩ := kalloc_eq taken
  cases run
  simp [pteAt, other]

/-- The frames of a new process, behind a new directory. -/
structure NewFrames (sc : Scope) (s : Machine) (q kstack : Nat) (ustacks : Stacks) : Prop where
  steps : Steps sc s.world ⟨ustacks.mem, update s.pins (.stack q) (some kstack), s.shared,
    inHand ustacks.frames userStackPages + 0⟩
  fresh : Mem.Fresh ustacks.mem (q, 0)
  others : ∀ d v, d ≠ (q, 0) → ustacks.mem.pteAt d v = s.mem.pteAt d v

theorem newFrames_steps {q kstack : Nat} {m₁ m₂ : Mem} {ustacks : Stacks} (free : s.tasks q = none)
    (absent : s.mem.dirs (q, 0) = none) (opens : sc.opens (q, 0))
    (created : s.mem.vmmCreateAddressSpace (q, 0) = (true, m₁))
    (taken : m₁.kalloc = (some kstack, m₂)) (stacked : m₂.allocStacks = (true, ustacks)) :
    NewFrames sc s q kstack ustacks := by
  obtain ⟨opened, f, dir⟩ := create_steps (w := s.world) absent opens created
  have unpinned : s.pins (.stack q) = none := by simp [pins, pinsOf, kstacks, free]
  have pinned : Steps sc ⟨m₁, s.pins, s.shared, 0⟩
      ⟨m₂, update s.pins (.stack q) (some kstack), s.shared, 0⟩ :=
    (kalloc_steps taken).trans
      (plain (pin (w := ⟨m₂, s.pins, s.shared, kstack ::ₘ 0⟩) unpinned rfl))
  obtain ⟨pmm, same⟩ := allocStacks_eq stacked
  obtain ⟨-, rfl⟩ := kalloc_eq taken
  refine ⟨opened.trans (pinned.trans (allocStacks_steps stacked)), ⟨f, ?_⟩, fun d v other => ?_⟩
  · rw [same]
    exact dir
  · rw [← create_other other created, same]
    rfl

theorem ustack_low {i : Nat} (small : i < userStackPages) : ustackPage + i < totalPages := by
  unfold userStackPages at small
  unfold ustackPage totalPages
  omega

theorem shared_empty (free : s.tasks p = none) (t : MmapTable)
    (empty : ∀ v, ¬ t.Shared v) (g : Nat) :
    update s.shared (p, g) t.Shared = s.shared := by
  funext d v
  rw [update_apply]
  split
  · rename_i same
    rw [same]
    exact propext ⟨fun inside => absurd inside (empty v),
      fun inside => absurd inside (shared_free free g v)⟩
  · rfl

theorem not_shared_default (v : Nat) : ¬ ({} : MmapTable).Shared v := by
  rintro ⟨i, shared, -⟩
  cases shared

theorem spawn_steps {img : Image} (good : s.Good) (run : s.spawn p img = some s') :
    Steps (s.scope (.spawn p img)) s.world s'.world ∧ (s'.mem.root (p, 0)).isSome = true := by
  unfold spawn at run
  split at run
  · cases run
  rename_i free
  split at run
  · cases run
  rename_i m₁ created
  split at run
  · cases run
  rename_i kstack m₂ taken
  split at run
  · cases run
  rename_i ustacks stacked
  split at run
  · cases run
  rename_i m₃ loaded
  cases run
  have opens : (s.scope (.spawn p img)).opens (p, 0) := rfl
  have first := newFrames_steps free (good.absent fun _ busy => by simp [free] at busy) opens
    created taken stacked
  have tidy := first.steps.tidy good.tidy
  have live : (ustacks.mem.root (p, 0)).isSome = true := by
    obtain ⟨f, dir⟩ := first.fresh
    simp [root, dir]
  have load := loadImage_steps (w := ⟨ustacks.mem, _, s.shared, _⟩) tidy
    (fun v inside => takes_of_range (s := s) (a := .spawn p img) (inl inside)
      fun high => ⟨rfl, high⟩) loaded
  have map := load.trans (mapRun_place (d := (p, 0)) (load.tidy tidy)
    (fun i small => ustack_low small)
    (fun i small => inl (inr (inr ⟨i, small, rfl⟩))) rfl)
  have fill := map.trans (fillStack_steps ustacks.frames img.stack)
  have last := fill.trans (mapTrampoline_steps (d := (p, 0)) (fill.tidy tidy)
    (inl (inr (inl rfl))) img.code)
  refine ⟨steps_created _ free rfl ?_, last.root_stays (d := (p, 0)) id live⟩
  rw [shared_empty free _ not_shared_default]
  exact first.steps.trans last

/-! ## fork -/

theorem cloneTable_shared (src dst : MmapTable) : (cloneTable src dst).Shared = src.Shared := by
  funext v
  refine propext ⟨?_, ?_⟩
  · rintro ⟨i, shared, covered⟩
    simp only [cloneTable] at shared covered
    split at shared
    · rename_i used
      rw [if_pos used] at covered
      exact ⟨i, shared, covered⟩
    · rename_i unused
      rw [if_neg unused] at covered
      exact absurd (covers_iff.mp covered).1 (by simp)
  · rintro ⟨i, shared, covered⟩
    have used := (covers_iff.mp covered).1
    refine ⟨i, ?_, ?_⟩
    · simp only [cloneTable, if_pos used]
      exact shared
    · simp only [cloneTable, if_pos used]
      exact covered

theorem forkStack_steps (parent child : Nat → Nat) {hand : Multiset Nat} (tidy : Tidy w.mem)
    (pages : ∀ i < userStackPages, sc.pages (ustackPage + i))
    (inHands : w.hand = inHand child userStackPages + hand) :
    Steps sc w { w with mem := w.mem.forkStack d parent child, hand := hand } := by
  have loop : ∀ n ≤ userStackPages, ∀ hand, w.hand = inHand child n + hand →
      Steps sc w { w with
        mem := countTo (fun i m =>
          let m := m.vmmMap d (ustackPage + i) (child i) (userFlags true)
          m.fill (child i) (m.page (parent i))) n w.mem
        hand := hand } := by
    intro n
    induction n with
    | zero =>
      intro _ hand inHands
      simp only [inHand, range_zero, map_zero, zero_add] at inHands
      rw [← inHands]
      exact refl
    | succ n ih =>
      intro small hand inHands
      rw [inHand_succ, cons_add, ← add_cons] at inHands
      have earlier := ih (le_of_succ_le small) _ inHands
      have placed :=
        earlier.trans (vmmMap_place (w := { w with mem := _, hand := child n ::ₘ hand })
        (earlier.tidy tidy) d (pages n small)
        (fun high => absurd (ustack_low small) (not_lt.mpr high)) rfl true)
      exact placed.trans (plain (fill _ _))
  exact loop userStackPages le_rfl hand inHands

theorem fork_steps {c : Nat} {code : Nat → UInt8} (good : s.Good)
    (mine : s.ForksMine (.fork p c code)) (run : s.fork p c code = some s') :
    Steps (s.scope (.fork p c code)) s.world s'.world ∧ (s'.mem.root (c, 0)).isSome = true := by
  unfold fork at run
  split at run
  · rename_i t task free
    split at run
    · cases run
    rename_i m₁ created
    split at run
    · cases run
    rename_i kstack m₂ taken
    split at run
    · cases run
    rename_i ustacks stacked
    have result := (some.inj run).symm
    clear run
    have otherPid : p ≠ c := by
      rintro rfl
      rw [task] at free
      cases free
    have apart : (p, t.gen) ≠ (c, 0) := fun same => otherPid (congrArg Prod.fst same)
    have opens : (s.scope (.fork p c code)).opens (c, 0) := rfl
    have first := newFrames_steps free (good.absent fun _ busy => by simp [free] at busy) opens
      created taken stacked
    have tidy := first.steps.tidy good.tidy
    obtain ⟨f, dir⟩ := first.fresh
    have live : (ustacks.mem.root (c, 0)).isSome = true := by simp [root, dir]
    have aside := (good.aside (a := .fork p c code) fun v custom => inr (inl custom)).steps
      first.steps
    have mineNow : ∀ u, t.table.Private u → ustacks.mem.Mine (p, t.gen) u := by
      intro u inside
      have before := mine t task u inside
      unfold Mem.Mine at before ⊢
      rw [first.others (p, t.gen) u apart]
      exact before
    obtain ⟨copied, mineKept⟩ := vmmForkAddressSpace_steps (w := ⟨ustacks.mem,
      update s.pins (.stack c) (some kstack), s.shared,
      inHand ustacks.frames userStackPages + 0⟩) tidy apart aside
      ⟨_, dir, fun k _ => rfl⟩
    generalize ustacks.mem.vmmForkAddressSpace (p, t.gen) (c, 0) = m₃ at copied mineKept result
    have joined := copied.trans (reshare_steps (c, 0) t.table.Shared
      (inl fun v inside => absurd inside (shared_free free 0 v)))
    have pinsNow : update s.pins (.stack c) (some kstack) =
        pinsOf s.objects s.segments (update s.kstacks c (some kstack)) :=
      (pinsOf_stack _ _ _ _ _).symm
    have sharedBoth : ∀ u, t.table.Shared u →
        update s.shared (c, 0) t.table.Shared (p, t.gen) u ∧
          update s.shared (c, 0) t.table.Shared (c, 0) u := by
      intro u inside
      rw [update_of_ne apart, update_self]
      exact ⟨(shared_of_task task u).mpr inside, inside⟩
    have cloned : Steps (s.scope (.fork p c code))
        (Vm.world ⟨m₃, s.objects, t.table⟩ s.segments (update s.kstacks c (some kstack))
          (update s.shared (c, 0) t.table.Shared)) _ :=
      mmapTableClone_steps (joined.tidy tidy) apart (good.tables p t task)
        (fun u covered => inr (inr ⟨t, task, covered⟩)) sharedBoth
        (fun u inside => mineKept u (mineNow u inside))
    generalize Vm.mmapTableClone ⟨m₃, s.objects, t.table⟩ (p, t.gen) (c, 0) = x at cloned result
    have inHands := cloned.holding (inHand ustacks.frames userStackPages + 0)
    rw [pinsNow] at joined
    have whole := joined.trans inHands
    have synced := whole.trans (syncKernelMmio_steps (whole.tidy tidy) (c, 0)).1
    have stacked := synced.trans (forkStack_steps (d := (c, 0)) t.ustack ustacks.frames
      (synced.tidy tidy) (fun i small => inl (inr ⟨i, small, rfl⟩)) (zero_add _))
    have last := stacked.trans (mapTrampoline_steps (d := (c, 0)) (stacked.tidy tidy)
      (inl (inl rfl)) code)
    subst result
    refine ⟨steps_created _ free rfl ?_, last.root_stays (d := (c, 0)) id live⟩
    rw [cloneTable_shared, ← pinsOf_stack]
    have start := first.steps
    rw [pinsNow] at start
    exact start.trans last
  · cases run

/-! ## exec -/

theorem detach_same (s : Machine) (id : Nat) :
    (s.detach id).tasks = s.tasks ∧ (s.detach id).objects = s.objects ∧
      ∀ j, ((s.detach id).segments j).numPages = (s.segments j).numPages ∧
        (((s.detach id).segments j).valid = true → (s.segments j).valid = true) := by
  unfold detach segFree
  dsimp only
  split
  all_goals
    refine ⟨rfl, rfl, fun j => ?_⟩
    by_cases here : j = id - 1
    · subst here
      simp
    · simp [update_of_ne here]

/-- After some rounds of `shm_detach_all`. -/
structure Detaching (sc : Scope) (hand : Multiset Nat) (s r : Machine) : Prop where
  steps : Steps sc (s.world.holding hand) (r.world.holding hand)
  tasks : r.tasks = s.tasks
  objects : r.objects = s.objects
  segments : ∀ j, (r.segments j).numPages = (s.segments j).numPages ∧
    ((r.segments j).valid = true → (s.segments j).valid = true)

theorem Detaching.segValid {hand : Multiset Nat} {r : Machine} {id : Nat}
    (detaching : Detaching sc hand s r) (valid : r.segValid id = true) : s.segValid id = true := by
  unfold Machine.segValid at valid ⊢
  simp only [Bool.and_eq_true] at valid ⊢
  exact ⟨valid.1, (detaching.segments (id - 1)).2 valid.2⟩

theorem shmDetachAll_steps (hand : Multiset Nat) (tidy : Tidy s.mem)
    (pages : ∀ i v, s.AttachedPage (t.attachments i) v → sc.pages v) :
    Detaching sc hand s (s.shmDetachAll t d) := by
  refine countTo_invariant (fun _ r => Detaching sc hand s r)
    ⟨refl, rfl, rfl, fun _ => ⟨rfl, id⟩⟩ ?_
  intro i r _ before
  dsimp only
  split
  · exact before
  rename_i named
  rw [not_or, Bool.not_eq_true', Bool.not_eq_false] at named
  obtain ⟨isSlot, valid⟩ := named
  have tidyNow : Tidy r.mem := before.steps.tidy tidy
  have unmapped : Steps sc r.world { r.world with
      mem := r.mem.shmUnmapFrom d (t.attachments i).base
        (r.segments ((t.attachments i).id - 1)).numPages } := by
    refine shmUnmapFrom_steps (w := r.world) tidyNow fun j small => pages i _ ?_
    rw [(before.segments _).1] at small
    exact ⟨isSlot, before.segValid valid, j, small, rfl⟩
  generalize r.mem.shmUnmapFrom d (t.attachments i).base
    (r.segments ((t.attachments i).id - 1)).numPages = m at unmapped
  obtain ⟨tasks, objects, segments⟩ := detach_same { r with mem := m } (t.attachments i).id
  have detached : Steps sc r.world ({ r with mem := m }.detach (t.attachments i).id).world :=
    unmapped.trans (detach_steps (s := { r with mem := m }) valid)
  refine ⟨before.steps.trans (detached.holding hand), tasks.trans before.tasks,
    objects.trans before.objects, fun j => ⟨?_, fun nowValid => ?_⟩⟩
  · exact (segments j).1.trans (before.segments j).1
  · exact (before.segments j).2 ((segments j).2 nowValid)

theorem shmDetachAll_none (none : ∀ i, (t.attachments i).id = 0) : s.shmDetachAll t d = s := by
  refine countTo_invariant (fun _ r => r = s) rfl ?_
  rintro i r - rfl
  rw [if_pos (inl (none i))]

theorem init_not_shared (t : MmapTable) (v : Nat) : ¬ t.init.Shared v := by
  rintro ⟨i, -, covered⟩
  exact absurd (covers_iff.mp covered).1 (by simp [MmapTable.init])

end Machine

theorem kalloc_unused {m m' : Mem} {f : Nat} (run : m.kalloc = (some f, m')) :
    m.pmm.used f = false ∧ ∀ g, m.pmm.used g = true → m'.pmm.used g = true := by
  obtain ⟨found, rfl⟩ := kalloc_eq run
  have pair : m.pmm.kalloc = (some f, m.pmm.kalloc.2) := Prod.ext found rfl
  obtain ⟨scanned, after⟩ := Pmm.kalloc_some pair
  refine ⟨(Pmm.scan_some scanned).2.2.1, fun g taken => ?_⟩
  rw [after]
  by_cases same : g = f
  · rw [same]
    exact update_self ..
  · exact (update_of_ne same _ _).trans taken

theorem allocStacks_unused {m : Mem} {x : Stacks} (run : m.allocStacks = (true, x)) :
    ∀ i < userStackPages, m.pmm.used (x.frames i) = false := by
  have loop : ∀ n y, countWhile allocStack n ⟨m, fun _ => 0⟩ = (true, y) →
      (∀ f, m.pmm.used f = true → y.mem.pmm.used f = true) ∧
        ∀ i < n, m.pmm.used (y.frames i) = false := by
    intro n
    induction n with
    | zero =>
      intro y made
      cases made
      exact ⟨fun _ => id, nofun⟩
    | succ n ih =>
      intro y made
      rw [countWhile] at made
      split at made
      · rename_i z before
        obtain ⟨grows, earlier⟩ := ih z before
        unfold allocStack at made
        split at made
        · cases made
        rename_i f m' taken
        cases made
        obtain ⟨free, more⟩ := kalloc_unused taken
        refine ⟨fun g old => more g (grows g old), fun i small => ?_⟩
        by_cases last : i = n
        · rw [last]
          change m.pmm.used (update z.frames n f n) = false
          rw [update_self]
          by_contra taken
          exact absurd (grows f (by simpa using taken)) (by simp [free])
        · change m.pmm.used (update z.frames n f i) = false
          rw [update_of_ne last]
          exact earlier i (lt_of_le_of_ne (le_of_lt_succ small) last)
      · cases made
  exact (loop userStackPages x run).2

theorem ustack_not_trampoline {i : Nat} (small : i < userStackPages) :
    ustackPage + i ≠ trampolinePage := by
  unfold userStackPages at small
  unfold ustackPage trampolinePage
  omega

theorem syncKernelMmio_other {m : Mem} {d d' : DirId} (other : d' ≠ d) :
    (m.syncKernelMmio d).dirs d' = m.dirs d' := by
  unfold Mem.syncKernelMmio
  split
  · rfl
  · exact update_of_ne other _ _

section Shows

variable {m : Mem} {d : DirId} {v f : Nat}

theorem Shows.fillStack (shows : Shows m d v f) (frames : Nat → Nat) (bytes : Nat → Nat → UInt8) :
    Shows (m.fillStack frames bytes) d v f := by
  have dirs : (m.fillStack frames bytes).dirs = m.dirs :=
    countTo_invariant (fun _ (t : Mem) => t.dirs = m.dirs) rfl fun _ _ _ same => same
  obtain ⟨e, own, rest⟩ := shows
  refine ⟨e, ?_, rest⟩
  unfold ownPte
  rw [dirs]
  exact own

theorem Shows.mapTrampoline (shows : Shows m d v f) (code : Nat → UInt8)
    (other : v ≠ trampolinePage) :
    Shows (m.mapTrampoline d code) d v f := by
  obtain ⟨e, own, rest⟩ := shows
  refine ⟨e, ?_, rest⟩
  unfold Mem.mapTrampoline
  split
  · rename_i taken
    obtain ⟨-, rfl⟩ := kalloc_eq taken
    exact own
  · rename_i taken
    obtain ⟨-, rfl⟩ := kalloc_eq taken
    exact vmmMap_other (fun same => other same.2) own

theorem Shows.syncKernelMmio (shows : Shows m d v f) (tidy : Tidy m) :
    Shows (m.syncKernelMmio d) d v f := by
  obtain ⟨e, own, rest⟩ := shows
  have both : Steps (Scope.touching fun _ => False) ⟨m, fun _ => none, fun _ _ => False, 0⟩ _ ∧ _ :=
    syncKernelMmio_steps tidy d
  exact ⟨e, both.2.own d v e own, rest⟩

end Shows

namespace Machine

variable {s s' : Machine} {p : Nat} {t : Task}

theorem exec_steps {img : Image} (good : s.Good) (run : s.exec p img = some s') :
    Steps (s.scope (.exec p img)) s.world s'.world ∧
      ∀ t, s.tasks p = some t → s'.mem.dirs (p, t.gen) = none ∧
        (s'.mem.root (p, t.gen + 1)).isSome = true := by
  unfold exec at run
  split at run
  · cases run
  rename_i t task
  dsimp only at run
  split at run
  · cases run
  rename_i ustacks stacked
  split at run
  · cases run
  rename_i m₁ created
  split at run
  · cases run
  rename_i m₂ loaded
  have result := (some.inj run).symm
  clear run
  generalize built : (((m₂.mapUserStack (p, t.gen + 1) ustacks.frames).fillStack ustacks.frames
    img.stack).mapTrampoline (p, t.gen + 1) img.code).syncKernelMmio (p, t.gen + 1) = m₄ at result
  have stackPages : ∀ i < userStackPages, (s.scope (.exec p img)).pages (ustackPage + i) :=
    fun i small => inl (inr (inl (inr ⟨i, small, rfl⟩)))
  have first : Steps (s.scope (.exec p img)) s.world
      ⟨ustacks.mem, s.pins, s.shared, inHand ustacks.frames userStackPages + 0⟩ :=
    allocStacks_steps stacked
  have absent : ustacks.mem.dirs (p, t.gen + 1) = none := by
    obtain ⟨pmm, same⟩ := allocStacks_eq stacked
    rw [same]
    refine good.absent fun t' task' => ?_
    cases task.symm.trans task'
    omega
  have opens : (s.scope (.exec p img)).opens (p, t.gen + 1) := ⟨t, task, rfl⟩
  obtain ⟨opened, f, dir⟩ := create_steps
    (w := ⟨ustacks.mem, s.pins, s.shared, inHand ustacks.frames userStackPages + 0⟩) absent
    opens created
  have live : (m₁.root (p, t.gen + 1)).isSome = true := by simp [root, dir]
  have begun := first.trans opened
  have tidy := begun.tidy good.tidy
  have load := loadImage_steps (w := ⟨m₁, s.pins, s.shared, _⟩) tidy
    (fun v inside => takes_of_range (s := s) (a := .exec p img) (inl inside)
      fun high => ⟨rfl, inl high⟩) loaded
  obtain ⟨left, few, placed, shown⟩ := mapRun_keep (d := (p, t.gen + 1)) (load.tidy tidy)
    (fun i small => ustack_low small) stackPages rfl
  have mapped := load.trans placed
  have filled := mapped.trans (fillStack_steps ustacks.frames img.stack)
  have tramped := filled.trans (mapTrampoline_steps (d := (p, t.gen + 1)) (filled.tidy tidy)
    (inl (inr (inl (inl rfl)))) img.code)
  have synced := tramped.trans
    (syncKernelMmio_steps (tramped.tidy tidy) (p, t.gen + 1)).1
  dsimp only at synced
  have shows : ∀ i < userStackPages, i ∉ left →
      Shows m₄ (p, t.gen + 1) (ustackPage + i) (ustacks.frames i) := by
    intro i small outside
    rw [← built]
    exact (((shown i small outside).fillStack _ _).mapTrampoline img.code
      (ustack_not_trampoline small)).syncKernelMmio (tramped.tidy tidy)
  rw [show m₂.mapRun _ _ _ _ = m₂.mapUserStack _ _ from rfl, built] at synced
  have detaching : Detaching (s.scope (.exec p img)) (left.val.map ustacks.frames + 0)
      { s with mem := m₄ } _ :=
    shmDetachAll_steps (t := t) (d := (p, t.gen + 1)) _ (synced.tidy tidy)
      fun i v attached => inl (inr (inr ⟨t, task, i, attached⟩))
  have stillShows : ∀ i < userStackPages, i ∉ left →
      Shows ({ s with mem := m₄ }.shmDetachAll t (p, t.gen + 1)).mem (p, t.gen + 1)
        (ustackPage + i) (ustacks.frames i) ∨
      (s.scope (.exec p img)).kinds .borrow ∧
        (s.scope (.exec p img)).frames (ustacks.frames i) := by
    intro i small outside
    by_cases none : ∀ j, (t.attachments j).id = 0
    · rw [shmDetachAll_none none]
      exact inl (shows i small outside)
    rw [not_forall] at none
    obtain ⟨j, attached⟩ := none
    exact inr ⟨⟨rfl, inr ⟨t, j, task, attached⟩⟩, allocStacks_unused stacked i small⟩
  generalize { s with mem := m₄ }.shmDetachAll t (p, t.gen + 1) = r
    at detaching stillShows result
  have detached : Steps (s.scope (.exec p img))
      ⟨m₄, s.pins, s.shared, left.val.map ustacks.frames + 0⟩
      ⟨r.mem, pinsOf r.objects r.segments s.kstacks, s.shared,
        left.val.map ustacks.frames + 0⟩ := by
    have steps := detaching.steps
    unfold World.holding Machine.world Machine.pins at steps
    simp only [zero_add] at steps
    rw [kstacks_congr detaching.tasks, shared_congr detaching.tasks] at steps
    exact steps
  have reached := synced.trans detached
  have again := reached.trans (mapRun_again (reached.tidy tidy)
    (fun i small => ustack_low small) stackPages few rfl stillShows)
  have aside := (good.aside (a := .exec p img) fun v custom => inr custom).steps
    (begun.trans again)
  have closed := again.trans (close_steps (again.tidy tidy) aside ⟨t, task, rfl⟩)
  have last := closed.trans (syncKernelMmio_steps (closed.tidy tidy) (p, t.gen + 1)).1
  have notClosed : ¬ (s.scope (.exec p img)).closes (p, t.gen + 1) := by
    rintro ⟨t', task', same⟩
    rw [task] at task'
    cases task'
    have := congrArg Prod.snd same
    omega
  subst result
  refine ⟨steps_replaced (some _) task detaching.tasks ?_ ?_, ?_⟩
  · rintro t' new
    cases new
    exact ⟨by simp, init_not_shared t.table⟩
  · have pinned : pinsOf r.objects r.segments s.kstacks (.stack p) = some t.kstack := by
      simp [pinsOf, kstacks, task]
    rw [map_some, ← pinned, update_eq_self]
    exact begun.trans last
  · intro t' task'
    rw [task] at task'
    cases task'
    refine ⟨?_, last.root_stays (d := (p, t.gen + 1)) notClosed live⟩
    refine (syncKernelMmio_other fun same => ?_).trans (vmmFreeAddressSpace_dirs _ _)
    have := congrArg Prod.snd same
    omega

end Machine

end CactKernel.Memory
