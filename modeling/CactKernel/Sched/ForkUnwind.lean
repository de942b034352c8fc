import Mathlib.Tactic.Ring

/-! # What a failing fork gives back

`task_fork` acquires a directory, two heap blocks, the stack frames, a descriptor table, a
reference on every open file and a region table; each return of null releases by hand what
came before it. What the allocations do is an input: `kmalloc` finds a block or none, and
`kalloc`, where no frame is free, changes counts by the pages it swaps out, or never comes
back from `oom_kill`, which asks for the scheduler lock that `task_fork` holds. Past the
region table nothing returns null, so the model stops there.

`Sched.taskFork` is the same call on the queues, `Memory.Machine.fork` on the page tables and
`Vfs.Kernel.taskFork` on the descriptors of all processes. -/

set_option autoImplicit false

namespace CactKernel.ForkUnwind

open List

/-- Frame and file reference counts, live heap blocks, node opens, memfd mappings. -/
structure Resources where
  frames : Nat → Nat
  blocks : Nat → Nat
  files : Nat → Nat
  opens : Nat → Nat
  maps : Nat → Nat

-- written as `List.count_cons` counts, so that loops add up to counts of lists
def take (c : Nat → Nat) (x : Nat) : Nat → Nat := fun y => c y + if x == y then 1 else 0

def drop (c : Nat → Nat) (x : Nat) : Nat → Nat := fun y => c y - if x == y then 1 else 0

namespace Resources

-- a free frame and a free block have count 0, so handing one out adds 1
@[simp] def kalloc (s : Resources) (page : Nat) : Resources :=
  { s with frames := take s.frames page }

@[simp] def freePage (s : Resources) (page : Nat) : Resources :=
  { s with frames := drop s.frames page }

@[simp] def kmalloc (s : Resources) (block : Nat) : Resources :=
  { s with blocks := take s.blocks block }

@[simp] def kfree (s : Resources) (block : Nat) : Resources :=
  { s with blocks := drop s.blocks block }

@[simp] def fileRef (s : Resources) (file : Nat) : Resources :=
  { s with files := take s.files file }

@[simp] def unwind (s : Resources) (pd child childP kstack : Nat) (pages : List Nat) : Resources :=
  ((((pages.foldl freePage s).freePage kstack).kfree childP).kfree child).freePage pd

end Resources

/-- What a `kalloc` does. -/
inductive KallocCall
  /-- The counts after the pages that it swapped out, and its answer. -/
  | returns (reclaim : Resources → Resources) (page : Option Nat)
  | spins

/-- What each allocation of one `task_fork` does. -/
structure Supply where
  childPd : KallocCall
  child : Option Nat
  childP : Option Nat
  kstack : KallocCall
  ustack : List KallocCall
  childFds : Option Nat
  childMmap : Option Nat

/-- The frame and the counts after a `kalloc`; `none` is a call that does not come back. -/
def KallocCall.run (s : Resources) : KallocCall → Option (Option Nat × Resources)
  | .returns reclaim (some page) => some (some page, (reclaim s).kalloc page)
  | .returns reclaim none => some (none, reclaim s)
  | .spins => none

/-- The flag says that all frames were there. -/
def ustackPages : List KallocCall → List Nat → Resources → Option (Bool × List Nat × Resources)
  | [], pages, s => some (true, pages, s)
  | call :: rest, pages, s => do
    match ← call.run s with
    | (none, s) => some (false, pages, s)
    | (some page, s) => ustackPages rest (pages ++ [page]) s

def taskFork (parent : Option (List (Option Nat))) (k : Supply) (s : Resources) :
    Option (Bool × Resources) :=
  match parent with
  | none => some (false, s)
  | some fdTable => do
    match ← k.childPd.run s with
    | (none, s) => some (false, s)
    | (some pd, s) =>
      match k.child with
      | none => some (false, s.freePage pd)
      | some child =>
        let s := s.kmalloc child
        match k.childP with
        | none => some (false, (s.kfree child).freePage pd)
        | some childP =>
          let s := s.kmalloc childP
          match ← k.kstack.run s with
          | (none, s) => some (false, ((s.kfree childP).kfree child).freePage pd)
          | (some kstack, s) =>
            match ← ustackPages k.ustack [] s with
            | (false, pages, s) => some (false, s.unwind pd child childP kstack pages)
            | (true, pages, s) =>
              match k.childFds with
              | none => some (false, s.unwind pd child childP kstack pages)
              | some childFds =>
                let s := (fdTable.filterMap id).foldl .fileRef (s.kmalloc childFds)
                match k.childMmap with
                | none => some (false, (s.kfree childFds).unwind pd child childP kstack pages)
                | some childMmap => some (true, s.kmalloc childMmap)

/-- The first look of a `kalloc` finds a free frame. -/
def KallocCall.Plain (call : KallocCall) : Prop := ∃ page, call = .returns id (some page)

def Supply.Plain (k : Supply) : Prop :=
  k.childPd.Plain ∧ k.kstack.Plain ∧ ∀ call ∈ k.ustack, call.Plain

@[simp] theorem foldl_freePage (pages : List Nat) (s : Resources) :
    pages.foldl .freePage s = { s with frames := fun y => s.frames y - pages.count y } := by
  induction pages generalizing s with
  | nil => simp
  | cons page rest ih =>
    simp [ih, drop, count_cons, Nat.sub_sub, Nat.add_comm]

@[simp] theorem foldl_fileRef (files : List Nat) (s : Resources) :
    files.foldl .fileRef s = { s with files := fun y => s.files y + files.count y } := by
  induction files generalizing s with
  | nil => simp
  | cons file rest ih =>
    simp [ih, take, count_cons, Nat.add_assoc, Nat.add_comm]

theorem ustackPages_plain {calls : List KallocCall} (plain : ∀ call ∈ calls, call.Plain)
    (pages : List Nat) (s : Resources) :
    ∃ got, ustackPages calls pages s =
      some (true, pages ++ got, { s with frames := fun y => s.frames y + got.count y }) := by
  induction calls generalizing pages s with
  | nil => exact ⟨[], by simp [ustackPages]⟩
  | cons first rest ih =>
    obtain ⟨page, rfl⟩ := plain first mem_cons_self
    obtain ⟨got, run⟩ := ih (fun call member => plain call (mem_cons_of_mem _ member))
      (pages ++ [page]) (s.kalloc page)
    refine ⟨page :: got, ?_⟩
    refine run.trans ?_
    simp [take, count_cons, Nat.add_assoc, Nat.add_comm]

@[simp] theorem drop_take (c : Nat → Nat) (x : Nat) : drop (take c x) x = c := by
  funext y
  simp [drop, take]

theorem files_unchanged_iff (s : Resources) (files : List Nat) :
    { s with files := fun y => s.files y + files.count y } = s ↔ files = [] := by
  cases s
  simp [funext_iff, count_eq_zero, eq_nil_iff_forall_not_mem]

/-- A fork that finds frames and returns null has left every count as it was exactly when some
`kmalloc` before the last one failed or no descriptor was open: the references taken on the
copied descriptor table are not given back when the region table cannot be allocated. -/
theorem fork_failure_iff (parent : Option (List (Option Nat))) (k : Supply) (plain : k.Plain)
    (s t : Resources) (null : taskFork parent k s = some (false, t)) :
    t = s ↔ (∀ fdTable ∈ parent, ∀ slot ∈ fdTable, slot = none) ∨
      k.child = none ∨ k.childP = none ∨ k.childFds = none := by
  obtain ⟨⟨pd, pdTaken⟩, ⟨kstack, kstackTaken⟩, stack⟩ := plain
  cases parent with
  | none =>
    cases null
    simp
  | some fdTable =>
    simp only [taskFork, pdTaken, kstackTaken, KallocCall.run, id_eq, Option.bind_eq_bind,
      Option.bind_some] at null
    cases childTaken : k.child with
    | none =>
      cases childTaken ▸ null
      simp
    | some child =>
      cases childPTaken : k.childP with
      | none =>
        simp only [childTaken, childPTaken] at null
        cases null
        simp
      | some childP =>
        obtain ⟨pages, run⟩ := ustackPages_plain stack [] (s.kalloc pd |>.kmalloc child
          |>.kmalloc childP |>.kalloc kstack)
        simp only [childTaken, childPTaken, run, Option.bind_some, nil_append] at null
        cases fdsTaken : k.childFds with
        | none =>
          simp only [fdsTaken] at null
          cases null
          simp
        | some childFds =>
          cases mmapTaken : k.childMmap with
          | none =>
            simp only [fdsTaken, mmapTaken] at null
            cases null
            simp [files_unchanged_iff]
          | some childMmap => simp [fdsTaken, mmapTaken] at null

/-- Only the region table cannot be allocated. -/
def lastFails : Supply :=
  ⟨.returns id (some 0), some 0, some 1, .returns id (some 1),
    [2, 3, 4, 5].map fun page => .returns id (some page), some 2, none⟩

def idle : Resources := ⟨fun _ => 0, fun _ => 0, fun _ => 1, fun _ => 1, fun _ => 0⟩

theorem fork_failure_iff_both : ∃ t t',
    taskFork (some [none]) lastFails idle = some (false, t) ∧ t = idle ∧
    taskFork (some [none, some 7]) lastFails idle = some (false, t') ∧ t' ≠ idle := by
  have plain : lastFails.Plain := by
    refine ⟨⟨0, rfl⟩, ⟨1, rfl⟩, fun call member => ?_⟩
    obtain ⟨page, -, rfl⟩ := mem_map.mp member
    exact ⟨page, rfl⟩
  refine ⟨_, _, rfl, (fork_failure_iff (some [none]) _ plain _ _ rfl).2 ?_, rfl, ?_⟩
  · simp
  · intro same
    have cause := (fork_failure_iff (some [none, some 7]) _ plain _ _ rfl).1 same
    simp [lastFails] at cause

/-- One descriptor is open: its file has a reference more than before. -/
theorem fork_keeps_references :
    ∃ parent k s t, taskFork parent k s = some (false, t) ∧ t.files 7 = s.files 7 + 1 :=
  ⟨some [none, some 7], lastFails, idle, _, rfl, by decide⟩

end CactKernel.ForkUnwind
