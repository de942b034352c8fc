import CactKernel.Memory.Lifecycle

/-! # Runs of the machine

Every step of the machine is a chain of small changes within the scope of its call,
and keeps the machine good. What the small changes of all scopes of a run preserve
therefore holds in every state of the run. -/

set_option autoImplicit false

namespace CactKernel.Memory

open Lib Mem Option Function

namespace Machine

variable {s s' : Machine} {p : Nat} {t : Task} {a : Action}

/-! ## Steps that keep the processes -/

/-- The region table of a process after a call that keeps the processes. -/
def TableAfter (s : Machine) (a : Action) (t : Task) (table : MmapTable) : Prop :=
  table = t.table ∨
    match a with
    | .mmap p args => s.tasks p = some t ∧ table = ((s.vm t).doMmap (p, t.gen) args).2.table
    | .munmap p addr length => s.tasks p = some t ∧ addr < 2 ^ 32 ∧
        table = ((s.vm t).doMunmap (p, t.gen) addr length).2.table
    | _ => False

variable {table : MmapTable} {addr v : Nat} {new : Option Task}

theorem TableAfter.bounded (after : s.TableAfter a t table) (bounded : t.table.Bounded) :
    table.Bounded := by
  rcases after with same | changed
  · rw [same]
    exact bounded
  cases a with
  | mmap p args =>
    rw [changed.2]
    exact doMmap_bounded (x := s.vm t) bounded
  | munmap p addr length =>
    rw [changed.2.2]
    exact doMunmap_bounded (x := s.vm t) bounded changed.2.1
  | _ => exact changed.elim

/-- The same processes with the same directories; only the mapping calls change a region
table. -/
structure SameSpaces (s : Machine) (a : Action) (s' : Machine) : Prop where
  gens : ∀ q, (s'.tasks q).map Task.gen = (s.tasks q).map Task.gen
  tables : ∀ q u, s'.tasks q = some u → ∃ t, s.tasks q = some t ∧ s.TableAfter a t u.table

theorem SameSpaces.of_tasks (tasks : s'.tasks = s.tasks) : SameSpaces s a s' where
  gens q := by rw [tasks]
  tables q u task := by
    rw [tasks] at task
    exact ⟨u, task, .inl rfl⟩

theorem SameSpaces.put (new : Task) (task : s.tasks p = some t) (tasks : s'.tasks = s.tasks)
    (gen : new.gen = t.gen) (after : s.TableAfter a t new.table) :
    SameSpaces s a (s'.setTask p (some new)) := by
  refine ⟨fun q => ?_, fun q u found => ?_⟩
  · unfold setTask
    dsimp only
    rw [tasks]
    by_cases same : q = p
    · rw [same, update_self, task]
      simp [gen]
    · rw [update_of_ne same]
  · unfold setTask at found
    dsimp only at found
    rw [tasks] at found
    by_cases same : q = p
    · rw [same, update_self] at found
      cases found
      rw [same]
      exact ⟨t, task, after⟩
    · rw [update_of_ne same] at found
      exact ⟨u, found, .inl rfl⟩

theorem shmRemove_tasks (s : Machine) (id : Nat) : (s.shmRemove id).tasks = s.tasks := by
  unfold shmRemove segFree
  dsimp only
  split
  · rfl
  split
  · rfl
  · rfl

theorem shmGet_tasks (s : Machine) (size : Nat) : (s.shmGet size).tasks = s.tasks := by
  unfold shmGet
  split
  · rfl
  split
  · rfl
  split
  · rfl
  · rfl

theorem shmAt_same {id : Nat} {readOnly round : Bool}
    (run : s.shmAt p id addr readOnly round = some s') : SameSpaces s a s' := by
  unfold shmAt at run
  split at run
  · cases run
  rename_i t task
  dsimp only at run
  split at run
  · cases run
    exact .of_tasks rfl
  split at run
  · cases run
    exact .of_tasks rfl
  split at run
  · cases run
    exact .of_tasks rfl
  have result := (some.inj run).symm
  subst result
  exact .put _ task rfl rfl (.inl rfl)

theorem shmDt_same (run : s.shmDt p addr = some s') : SameSpaces s a s' := by
  unfold shmDt at run
  split at run
  · cases run
  rename_i t task
  split at run
  · cases run
    exact .of_tasks rfl
  rename_i i found
  have put : SameSpaces s a
      (s.setTask p (some { t with attachments := update t.attachments i {} })) :=
    .put _ task rfl rfl (.inl rfl)
  dsimp only at run
  split at run
  · cases run
    exact put
  have result := (some.inj run).symm
  subst result
  obtain ⟨tasks, -, -⟩ := detach_same { s.setTask p
    (some { t with attachments := update t.attachments i {} }) with mem := _ }
    (t.attachments i).id
  exact ⟨fun q => by rw [tasks]; exact put.gens q,
    fun q u found => put.tables q u (by rw [tasks] at found; exact found)⟩

theorem brk_same {newBrk : Nat} (run : s.brk p newBrk = some s') : SameSpaces s a s' := by
  unfold brk at run
  split at run
  · cases run
  rename_i t task
  split at run
  · cases run
    exact .of_tasks rfl
  dsimp only at run
  split at run
  · have result := (some.inj run).symm
    subst result
    exact .put _ task rfl rfl (.inl rfl)
  · cases run
    exact .of_tasks rfl

/-- The calls that neither make nor end an address space. -/
def keepsSpaces : Action → Prop
  | .spawn _ _ => False
  | .exec _ _ => False
  | .fork _ _ _ => False
  | .exit _ => False
  | _ => True

theorem step_same (keeps : keepsSpaces a) (move : s.step a = some s') : SameSpaces s a s' := by
  cases a with
  | spawn p img | exec p img | fork p c code | exit p => exact keeps.elim
  | brk p newBrk => exact brk_same move
  | mmap p args =>
    obtain ⟨t, task, result⟩ := map_eq_some_iff.mp move
    subst result
    exact .put _ task rfl rfl (.inr ⟨task, rfl⟩)
  | munmap p addr length =>
    rw [step, munmap] at move
    split at move
    · cases move
    rename_i t task
    split at move
    · cases move
    rename_i address
    have result := (some.inj move).symm
    subst result
    exact .put _ task rfl rfl (.inr ⟨task, by omega, rfl⟩)
  | mprotect p addr length write =>
    obtain ⟨t, task, result⟩ := map_eq_some_iff.mp move
    subst result
    exact .of_tasks rfl
  | fault p v write =>
    rw [step, fault] at move
    split at move
    · cases move
    split at move
    · cases move
    · cases move
      exact .of_tasks rfl
  | store p v offset b =>
    rw [step, store] at move
    split at move
    · cases move
    split at move
    · cases move
      exact .of_tasks rfl
    · cases move
  | memfdCreate | memfdRef h | memfdClose h =>
    cases move
    refine .of_tasks ?_
    simp only [memfdCreate, memfdRef, memfdClose]
    split
    · rfl
    · rfl
  | memfdTruncate h size =>
    cases move
    refine .of_tasks ?_
    unfold memfdTruncate
    dsimp only
    generalize (if (s.objects h).size < size then growLocked s.mem (s.objects h) (pagesOf size)
      else (true, s.mem, s.objects h)) = grown
    split
    · rfl
    split
    · split
      · rfl
      · rfl
    · rfl
  | shmGet size =>
    cases move
    exact .of_tasks (shmGet_tasks s size)
  | shmAt p id addr readOnly round => exact shmAt_same move
  | shmDt p addr => exact shmDt_same move
  | shmRemove id =>
    cases move
    exact .of_tasks (shmRemove_tasks s id)

theorem not_opened (keeps : keepsSpaces a) (d : DirId) : ¬ (s.scope a).opens d := by
  cases a with
  | spawn p img | exec p img | fork p c code => exact keeps.elim
  | _ => exact id

theorem not_closed (keeps : keepsSpaces a) (d : DirId) : ¬ (s.scope a).closes d := by
  cases a with
  | exec p img | exit p => exact keeps.elim
  | _ => exact id

/-! ## Good machines -/

/-- A directory is open exactly when a task has it. -/
def Owns (s : Machine) (d : DirId) : Prop := ∃ t, s.tasks d.1 = some t ∧ t.gen = d.2

theorem owns_iff {d : DirId} : s.Owns d ↔ (s.tasks d.1).map Task.gen = some d.2 := by
  unfold Owns
  rw [map_eq_some_iff]

theorem Good.next (good : s.Good) (steps : Steps (s.scope a) s.world s'.world)
    (keeps : keepsSpaces a) (same : SameSpaces s a s') : s'.Good where
  tidy := steps.tidy good.tidy
  dirs d := by
    have root : (s'.mem.root d).isSome = (s.mem.root d).isSome :=
      steps.root_isSome (not_opened keeps d) (not_closed keeps d)
    have owns := good.dirs d
    rw [root, owns]
    change s.Owns d ↔ s'.Owns d
    rw [owns_iff, owns_iff, same.gens]
  tables q u task := by
    obtain ⟨t, found, after⟩ := same.tables q u task
    exact after.bounded (good.tables q t found)

def Regioned (s : Machine) (v : Nat) : Prop := ∃ p t, s.tasks p = some t ∧ t.table.Covers v

theorem covers_used (covered : table.Covers v) : ∃ i, (table.regions i).used = true := by
  obtain ⟨i, inside⟩ := covered
  exact ⟨i, (covers_iff.mp inside).1⟩

theorem bounded_default : ({} : MmapTable).Bounded :=
  ⟨by decide, fun i used => absurd used (by simp)⟩

theorem bounded_init (t : MmapTable) : t.init.Bounded := by
  refine ⟨?_, fun i used => absurd used (by simp [MmapTable.init])⟩
  change mmapBase ≤ totalPages
  decide

theorem covers_clone {src dst : MmapTable} (covered : (cloneTable src dst).Covers v) :
    src.Covers v := by
  obtain ⟨i, inside⟩ := covered
  refine ⟨i, ?_⟩
  simp only [cloneTable] at inside
  split at inside
  · exact inside
  · exact absurd (covers_iff.mp inside).1 (by simp)

/-- What a call does to the task `p`. -/
structure Replaces (s s' : Machine) (p : Nat) (new : Option Task) : Prop where
  tasks : s'.tasks = update s.tasks p new
  bounded : ∀ t, new = some t → t.table.Bounded
  regions : ∀ t v, new = some t → t.table.Covers v → s.Regioned v

variable {img : Image}

theorem spawn_replaces (run : s.spawn p img = some s') :
    s.tasks p = none ∧ ∃ new, new.gen = 0 ∧ Replaces s s' p (some new) := by
  unfold spawn at run
  split at run
  · cases run
  rename_i free
  refine ⟨free, ?_⟩
  split at run
  · cases run
  split at run
  · cases run
  split at run
  · cases run
  split at run
  · cases run
  have result := (some.inj run).symm
  subst result
  refine ⟨_, rfl, rfl, fun t same => ?_, fun t v same covered => ?_⟩
  · cases same
    exact bounded_default
  · cases same
    obtain ⟨i, used⟩ := covers_used covered
    cases used

theorem fork_replaces {c : Nat} {code : Nat → UInt8} (good : s.Good)
    (run : s.fork p c code = some s') :
    s.tasks c = none ∧ ∃ new, new.gen = 0 ∧ Replaces s s' c (some new) := by
  unfold fork at run
  split at run
  · rename_i t task free
    refine ⟨free, ?_⟩
    split at run
    · cases run
    split at run
    · cases run
    split at run
    · cases run
    have result := (some.inj run).symm
    subst result
    refine ⟨_, rfl, rfl, fun u same => ?_, fun u v same covered => ?_⟩
    · cases same
      exact bounded_clone _ (good.tables p t task)
    · cases same
      exact ⟨p, t, task, covers_clone covered⟩
  · cases run

theorem shmDetachAll_tasks (s : Machine) (t : Task) (d : DirId) :
    (s.shmDetachAll t d).tasks = s.tasks := by
  refine countTo_invariant (fun _ (r : Machine) => r.tasks = s.tasks) rfl ?_
  intro i r _ before
  dsimp only
  split
  · exact before
  · exact (detach_same _ _).1.trans before

theorem exec_replaces (run : s.exec p img = some s') :
    ∃ t new, s.tasks p = some t ∧ new.gen = t.gen + 1 ∧ Replaces s s' p (some new) := by
  unfold exec at run
  split at run
  · cases run
  rename_i t task
  dsimp only at run
  split at run
  · cases run
  split at run
  · cases run
  split at run
  · cases run
  have result := (some.inj run).symm
  subst result
  refine ⟨t, _, task, ?_, congrArg (update · p _) (shmDetachAll_tasks _ t _), ?_, ?_⟩
  · rfl
  · intro u same
    cases same
    exact bounded_init t.table
  · intro u v same covered
    cases same
    obtain ⟨i, used⟩ := covers_used covered
    exact absurd used (by simp [MmapTable.init])

theorem exit_replaces (run : s.exit p = some s') :
    ∃ t, s.tasks p = some t ∧ Replaces s s' p none := by
  unfold exit at run
  split at run
  · cases run
  rename_i t task
  have result := (some.inj run).symm
  subst result
  exact ⟨t, task, rfl, nofun, nofun⟩

theorem Replaces.tables (replaces : Replaces s s' p new) (good : s.Good) :
    ∀ q t, s'.tasks q = some t → t.table.Bounded := by
  intro q t task
  rw [replaces.tasks] at task
  by_cases here : q = p
  · rw [here, update_self] at task
    exact replaces.bounded t task
  · rw [update_of_ne here] at task
    exact good.tables q t task

theorem Good.created {new : Task} (good : s.Good) (free : s.tasks p = none)
    (replaces : Replaces s s' p (some new)) (gen : new.gen = 0)
    (steps : Steps (s.scope a) s.world s'.world)
    (opens : ∀ d, (s.scope a).opens d ↔ d = (p, 0)) (closes : ∀ d, ¬ (s.scope a).closes d)
    (live : (s'.mem.root (p, 0)).isSome = true) : s'.Good where
  tidy := steps.tidy good.tidy
  dirs d := by
    have root : ¬ (s.scope a).opens d → (s'.mem.root d).isSome = (s.mem.root d).isSome :=
      fun other => steps.root_isSome other (closes d)
    by_cases here : d.1 = p
    · rw [replaces.tasks, here, update_self]
      by_cases zero : d.2 = 0
      · have isNew : d = (p, 0) := Prod.ext here zero
        rw [isNew]
        exact ⟨fun _ => ⟨new, rfl, gen⟩, fun _ => live⟩
      rw [root fun opened => zero (by rw [(opens d).mp opened]), good.dirs d, here, free]
      constructor
      · rintro ⟨t, none, -⟩
        cases none
      · rintro ⟨t, same, sameGen⟩
        cases same
        exact absurd (sameGen.symm.trans gen) zero
    · rw [root fun opened => here (by rw [(opens d).mp opened]), good.dirs d, replaces.tasks,
        update_of_ne here]
  tables := replaces.tables good

/-- The directory of the old task is gone; of those of its process only the new task's is there. -/
theorem replaced_good (good : s.Good) (task : s.tasks p = some t) (replaces : Replaces s s' p new)
    (tidy : Tidy s'.mem) (gone : s'.mem.dirs (p, t.gen) = none)
    (live : ∀ u, new = some u → (s'.mem.root (p, u.gen)).isSome = true)
    (others : ∀ d : DirId, d ≠ (p, t.gen) → (∀ u, new = some u → d ≠ (p, u.gen)) →
      (s'.mem.root d).isSome = (s.mem.root d).isSome) :
    s'.Good := by
  refine ⟨tidy, fun d => ?_, replaces.tables good⟩
  rw [replaces.tasks]
  by_cases here : d.1 = p
  · rw [here, update_self]
    by_cases next : ∃ u, new = some u ∧ u.gen = d.2
    · obtain ⟨u, isNew, same⟩ := next
      have isDir : d = (p, u.gen) := Prod.ext here same.symm
      exact iff_of_true (isDir ▸ live u isNew) ⟨u, isNew, same⟩
    refine iff_of_false ?_ next
    by_cases old : d.2 = t.gen
    · have isDir : d = (p, t.gen) := Prod.ext here old
      simp [isDir, root, gone]
    rw [others d (fun isDir => old (by rw [isDir]))
      fun u isNew isDir => next ⟨u, isNew, by rw [isDir]⟩,
      good.dirs d, here, task]
    rintro ⟨u, found, same⟩
    cases found
    exact old same.symm
  · rw [others d (fun isDir => here (by rw [isDir])) fun u _ isDir => here (by rw [isDir]),
      good.dirs d, update_of_ne here]

theorem exec_good (good : s.Good) (run : s.exec p img = some s')
    (steps : Steps (s.scope (.exec p img)) s.world s'.world) : s'.Good := by
  obtain ⟨t, new, task, gen, replaces⟩ := exec_replaces run
  obtain ⟨gone, live⟩ := (exec_steps good run).2 t task
  refine replaced_good good task replaces (steps.tidy good.tidy) gone ?_ ?_
  · rintro u isNew
    cases isNew
    rw [gen]
    exact live
  · intro d old next
    refine steps.root_isSome ?_ ?_
    · rintro ⟨u, found, isDir⟩
      cases task.symm.trans found
      exact next new rfl (by rw [isDir, gen])
    · rintro ⟨u, found, isDir⟩
      cases task.symm.trans found
      exact old isDir

theorem exit_good (good : s.Good) (run : s.exit p = some s')
    (steps : Steps (s.scope (.exit p)) s.world s'.world) : s'.Good := by
  obtain ⟨t, task, replaces⟩ := exit_replaces run
  refine replaced_good good task replaces (steps.tidy good.tidy) ((exit_steps good run).2 t task)
    nofun fun d old _ => steps.root_isSome id ?_
  rintro ⟨u, found, isDir⟩
  cases task.symm.trans found
  exact old isDir

/-! ## Every step -/

theorem keeps_steps (good : s.Good) (keeps : keepsSpaces a) (move : s.step a = some s') :
    Steps (s.scope a) s.world s'.world := by
  cases a with
  | spawn p img | exec p img | fork p c code | exit p => exact keeps.elim
  | brk p newBrk => exact brk_steps good move
  | mmap p args => exact mmap_steps good move
  | munmap p addr length => exact munmap_steps good move
  | mprotect p addr length write => exact mprotect_steps good move
  | fault p v write => exact fault_steps good move
  | store p v offset b => exact store_steps move
  | memfdCreate =>
    cases move
    exact memfdCreate_steps
  | memfdRef h =>
    cases move
    exact memfdRef_steps h
  | memfdClose h =>
    cases move
    exact memfdClose_steps h
  | memfdTruncate h size =>
    cases move
    exact memfdTruncate_steps h size
  | shmGet size =>
    cases move
    exact shmGet_steps size
  | shmAt p id addr readOnly round => exact shmAt_steps good move
  | shmDt p addr => exact shmDt_steps good move
  | shmRemove id =>
    cases move
    exact shmRemove_steps id

theorem step_steps (good : s.Good) (mine : s.ForksMine a) (move : s.step a = some s') :
    Steps (s.scope a) s.world s'.world ∧ s'.Good := by
  by_cases keeps : keepsSpaces a
  · have steps := keeps_steps good keeps move
    exact ⟨steps, good.next steps keeps (step_same keeps move)⟩
  cases a with
  | spawn p img =>
    obtain ⟨steps, live⟩ := spawn_steps good move
    obtain ⟨free, new, gen, replaces⟩ := spawn_replaces move
    exact ⟨steps, good.created free replaces gen steps (fun _ => Iff.rfl) (fun _ => id) live⟩
  | fork p c code =>
    obtain ⟨steps, live⟩ := fork_steps good mine move
    obtain ⟨free, new, gen, replaces⟩ := fork_replaces good move
    exact ⟨steps, good.created free replaces gen steps (fun _ => Iff.rfl) (fun _ => id) live⟩
  | exec p img =>
    have steps := (exec_steps good move).1
    exact ⟨steps, exec_good good move steps⟩
  | exit p =>
    have steps := (exit_steps good move).1
    exact ⟨steps, exit_good good move steps⟩
  | _ => exact absurd trivial keeps

end Machine

end CactKernel.Memory
