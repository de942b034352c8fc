import CactKernel.Vfs.Pipe

/-! # What the counters of a pipe count

`pipe_create` counts both ends once before `file_alloc` counts them again, so every
counter of a pipe stays one ahead of the live descriptions, and a pipe that got its
two files is never freed. -/

set_option autoImplicit false

namespace CactKernel.Vfs

open List Option Function Nat Or

variable {p : Pipe} {size : Nat}

theorem Pipe.read_at_end (unwritten : p.writeOpen = 0) (empty : p.len = 0)
    (wanted : 0 < size) : p.pipeRead size = some (.returned 0, [], p) := by
  rw [pipeRead, if_neg (by omega), readLoop, if_pos (by simpa using wanted), if_pos empty,
    if_pos unwritten]
  rfl

theorem Pipe.write_unread (unread : p.readOpen = 0) {data : List UInt8}
    (wanted : data ≠ []) : p.pipeWrite data = some (.returned (-ePipe), p) := by
  rw [pipeWrite, if_neg wanted, if_pos unread]

theorem Faithful.of_counters {w : PipeFiles}
    (counters : ∀ i e p, w.sys[i]? = some e → e.body = some p →
      p.readOpen = w.live (.pipeEnd i false) ∧ p.writeOpen = w.live (.pipeEnd i true)) :
    Faithful w where
  counters := counters
  endOfFile := by
    intro i e p entry body closed empty size wanted
    exact p.read_at_end ((counters i e p entry body).2.trans closed) empty wanted
  brokenPipe := by
    intro i e p entry body closed data wanted
    exact p.write_unread ((counters i e p entry body).1.trans closed) wanted

/-! ## What the counters really are -/

/-- The pipe with number `i`, unless it is freed. -/
def pipeAt (s : Pipes) (i : Nat) : Option Pipe := s[i]?.bind PipeEntry.body

/-- Every counter of a pipe is one more than what it counts, since `pipe_create` counts the
two ends before `file_alloc` does; `live` are the descriptions of its ends. -/
def Ahead (live : Bool → Nat) (allocated : Prop) : Option Pipe → Prop
  | none => ¬ allocated ∧ ∀ write, live write = 0
  | some p => allocated ∧ p.readOpen = live false + 1 ∧ p.writeOpen = live true + 1 ∧
      p.refCount = live false + live true + 2

def AllAhead (live : PipeNode → Nat) (allocated : Nat → Prop) (s : Pipes) : Prop :=
  ∀ i, Ahead (fun write => live (.pipeEnd i write)) (allocated i) (pipeAt s i)

namespace Ahead

variable {live l : Bool → Nat} {allocated : Prop}

theorem opened (ahead : Ahead live allocated (some p)) (write : Bool)
    (more : ∀ end_, l end_ = live end_ + if write = end_ then 1 else 0) :
    Ahead l allocated (some (p.opened write)) := by
  obtain ⟨there, reads, writes, refs⟩ := ahead
  have read := more false
  have written := more true
  refine ⟨there, ?_⟩
  cases write <;> simp [Pipe.opened] at read written ⊢ <;> omega

theorem closed (ahead : Ahead live allocated (some p)) (write : Bool)
    (less : ∀ end_, l end_ + (if write = end_ then 1 else 0) = live end_) :
    Ahead l allocated (some (p.closed write)) := by
  obtain ⟨there, reads, writes, refs⟩ := ahead
  have read := less false
  have written := less true
  refine ⟨there, ?_⟩
  cases write <;> simp [Pipe.closed] at read written ⊢ <;> omega

end Ahead

variable {live live' : PipeNode → Nat} {allocated allocated' : Nat → Prop} {s s' : Pipes} {i : Nat}

theorem pipeAt_modify {f : PipeEntry → PipeEntry} {q : Option Pipe} (body : pipeAt s i = some p)
    (acts : ∀ e, e.body = some p → (f e).body = q) :
    pipeAt (s.modify i f) = update (pipeAt s) i q := by
  obtain ⟨e, there, held⟩ := bind_eq_some_iff.mp body
  funext j
  by_cases same : j = i
  · subst same
    simp [pipeAt, there, acts e held]
  · simp [pipeAt, same, Ne.symm same]

namespace AllAhead

/-- One pipe changes, and is ahead by its own count. -/
theorem update {after : Option Pipe} (all : AllAhead live allocated s)
    (pipes : pipeAt s' = Function.update (pipeAt s) i after)
    (ahead : Ahead (fun write => live' (.pipeEnd i write)) (allocated' i) after)
    (others : ∀ j, j ≠ i → (allocated' j ↔ allocated j) ∧
      ∀ write, live' (.pipeEnd j write) = live (.pipeEnd j write)) :
    AllAhead live' allocated' s' := by
  intro j
  rw [pipes]
  by_cases same : j = i
  · subst same
    rw [update_self]
    exact ahead
  · obtain ⟨still, lives⟩ := others j same
    rw [update_of_ne same, funext lives, propext still]
    exact all j

theorem other (all : AllAhead live allocated s)
    (same : ∀ i write, live' (.pipeEnd i write) = live (.pipeEnd i write)) :
    AllAhead live' allocated s := by
  intro i
  rw [funext (same i)]
  exact all i

theorem unmade {a : PipeAction} {n : Nat} (all : AllAhead live allocated s)
    (unmade : ¬ MakesPipe a) :
    AllAhead live (fun j => allocated j ∨ MakesPipe a ∧ j = n) s := by
  simpa [unmade] using all

variable {node : PipeNode}

theorem onClose (all : AllAhead live allocated s) (some : 0 < live node)
    (less : ∀ n, live' n + (if node = n then 1 else 0) = live n)
    (run : pipeHooks.onClose node s = Option.some s') : AllAhead live' allocated s' := by
  cases node with
  | other =>
    cases run
    exact all.other fun i write => by simpa using less (.pipeEnd i write)
  | pipeEnd i write =>
    cases run
    have ahead := all i
    cases body : pipeAt s i with
    | none =>
      rw [body] at ahead
      exact absurd (ahead.2 write) (Nat.ne_of_gt some)
    | some p =>
      rw [body] at ahead
      have closed := ahead.closed (l := fun write => live' (.pipeEnd i write)) write
        fun end_ => by simpa using less (.pipeEnd i end_)
      have kept : (p.closed write).refCount ≠ 0 := by
        rw [closed.2.2.2]
        exact Nat.succ_ne_zero _
      refine all.update (pipeAt_modify body fun e body => ?_) closed fun j other => ⟨.rfl, ?_⟩
      · simp [PipeEntry.close, body, kept]
      · exact fun end_ => by simpa [Ne.symm other] using less (.pipeEnd j end_)

theorem onOpen (all : AllAhead live allocated s)
    (there : ∀ i write, node = .pipeEnd i write → allocated i)
    (more : ∀ n, live' n = live n + if node = n then 1 else 0) :
    AllAhead live' allocated (pipeHooks.onOpen node s) := by
  cases node with
  | other => exact all.other fun i write => by simpa using more (.pipeEnd i write)
  | pipeEnd i write =>
    have ahead := all i
    cases body : pipeAt s i with
    | none =>
      rw [body] at ahead
      exact absurd (there i write rfl) ahead.1
    | some p =>
      rw [body] at ahead
      have opened := ahead.opened (l := fun write => live' (.pipeEnd i write)) write
        fun end_ => by simpa using more (.pipeEnd i end_)
      refine all.update (pipeAt_modify body fun e body => ?_) opened fun j other => ⟨.rfl, ?_⟩
      · simp [PipeEntry.open_, body]
      · exact fun end_ => by simpa [Ne.symm other] using more (.pipeEnd j end_)

end AllAhead

/-! ## Reading and writing -/

namespace Pipe

/-- What the hooks change. -/
def counts (p : Pipe) : Nat × Nat × Nat := (p.readOpen, p.writeOpen, p.refCount)

variable {r : Outcome × List UInt8 × Pipe}

theorem counts_readLoop (rounds : Nat) {copied : List UInt8} {p : Pipe}
    (run : readLoop size rounds copied p = some r) : r.2.2.counts = p.counts := by
  induction rounds generalizing copied p r with
  | zero => cases run
  | succ rounds ih =>
    rw [readLoop] at run
    split at run
    · split at run
      · split at run
        · exact some.inj run ▸ rfl
        split at run <;> exact some.inj run ▸ rfl
      · exact (ih run).trans rfl
    · exact some.inj run ▸ rfl

theorem counts_pipeRead (run : p.pipeRead size = some r) : r.2.2.counts = p.counts := by
  rw [pipeRead] at run
  split at run
  · exact some.inj run ▸ rfl
  · exact counts_readLoop _ run

theorem counts_writeLoop (rounds : Nat) {written : Nat} {left : List UInt8} {p : Pipe}
    {r : Outcome × Pipe} (run : writeLoop rounds written left p = some r) :
    r.2.counts = p.counts := by
  induction rounds generalizing written left p r with
  | zero => cases run
  | succ rounds ih =>
    rw [writeLoop] at run
    split at run
    · exact some.inj run ▸ rfl
    split at run
    · exact some.inj run ▸ rfl
    split at run
    · split at run <;> exact some.inj run ▸ rfl
    · exact (ih run).trans rfl

theorem counts_pipeWrite {data : List UInt8} {r : Outcome × Pipe}
    (run : p.pipeWrite data = some r) : r.2.counts = p.counts := by
  rw [pipeWrite] at run
  split at run
  · exact some.inj run ▸ rfl
  split at run
  · exact some.inj run ▸ rfl
  · exact counts_writeLoop _ run

end Pipe

namespace PipeFiles

variable {w w' : PipeFiles}

/-- The books are kept from `w` to `w'`, and the same pipes are allocated. -/
def Keeps (w w' : PipeFiles) : Prop :=
  ∀ allocated, AllAhead w.live allocated w.sys → AllAhead w'.live allocated w'.sys

theorem Keeps.trans {w'' : PipeFiles} (first : Keeps w w') (second : Keeps w' w'') :
    Keeps w w'' := fun allocated all => second allocated (first allocated all)

theorem Keeps.of_eq (sys : w'.sys = w.sys) (live : ∀ n, w'.live n = w.live n) : Keeps w w' := by
  intro allocated all
  rw [sys, funext live]
  exact all

theorem Keeps.refl : Keeps w w := fun _ all => all

variable {fd i : Nat}

theorem pipeOf_some (found : w.pipeOf fd = some (i, p)) : pipeAt w.sys i = some p := by
  rw [pipeOf] at found
  obtain ⟨f, -, found⟩ := bind_eq_some_iff.mp found
  obtain ⟨d, -, found⟩ := bind_eq_some_iff.mp found
  split at found
  · obtain ⟨e, there, found⟩ := bind_eq_some_iff.mp found
    obtain ⟨q, body, found⟩ := bind_eq_some_iff.mp found
    cases found
    exact bind_eq_some_iff.mpr ⟨e, there, body⟩
  · cases found

theorem setPipe_keeps {q : Pipe} (found : w.pipeOf fd = some (i, p))
    (counts : q.counts = p.counts) : Keeps w (w.setPipe i q) := by
  intro allocated all
  have ahead := all i
  rw [pipeOf_some found] at ahead
  simp only [Pipe.counts, Prod.mk.injEq] at counts
  refine all.update (pipeAt_modify (pipeOf_some found) fun _ _ => rfl) ?_ fun _ _ =>
    ⟨.rfl, fun _ => rfl⟩
  rw [Ahead, counts.1, counts.2.1, counts.2.2]
  exact ahead

theorem fileUnref_keeps {f : Nat} (run : w.fileUnref pipeHooks f = some w') : Keeps w w' := by
  have dropped := OpenFiles.fileUnref_cases run
  cases last : w.lastOf f with
  | none =>
    rw [last] at dropped
    exact .of_eq dropped.1 dropped.2
  | some node =>
    rw [last] at dropped
    obtain ⟨closed, some, less⟩ := dropped
    exact fun _ all => all.onClose some less closed

theorem share_keeps {a : Share} (run : w.share pipeHooks a = some w') : Keeps w w' := by
  have shared := OpenFiles.share_cases run
  cases closing : w.closes a with
  | none =>
    rw [closing] at shared
    exact .of_eq shared.1 shared.2
  | some node =>
    rw [closing] at shared
    obtain ⟨closed, some, less⟩ := shared
    exact fun _ all => all.onClose some less closed

theorem open_keeps {heap : Bool} {r : Option Nat × PipeFiles}
    (run : w.allocFd pipeHooks .other heap = some r) : Keeps w r.2 := by
  rcases OpenFiles.allocFd_cases run with ⟨-, rfl⟩ | ⟨-, i, -, -, sys, more⟩ | ⟨-, -, -, sys, same⟩
  · exact .refl
  · intro allocated all
    rw [sys]
    exact all.onOpen (fun _ _ other => by cases other) more
  · exact .of_eq (some.inj sys).symm same

theorem install_keeps {rf wf : Nat} (run : install rf wf w = some w') : Keeps w w' := by
  rw [install] at run
  split at run
  · cases run
    exact .of_eq rfl fun _ => rfl
  · obtain ⟨u, first, second⟩ := bind_eq_some_iff.mp run
    exact (fileUnref_keeps first).trans (fileUnref_keeps second)

/-! ## A new pipe -/

def created (w : PipeFiles) : PipeFiles := { w with sys := w.sys ++ [.fresh] }

theorem pipeAt_created (w : PipeFiles) :
    pipeAt w.created.sys = update (pipeAt w.sys) w.sys.length PipeEntry.fresh.body := by
  funext j
  simp only [pipeAt, created, update_apply]
  rcases Nat.lt_trichotomy j w.sys.length with before | same | after
  · rw [getElem?_append_left before, if_neg (Nat.ne_of_lt before)]
  · rw [same, getElem?_concat_length, if_pos rfl]
    rfl
  · rw [getElem?_eq_none (by simp; omega), getElem?_eq_none (by omega), if_neg (Nat.ne_of_gt after)]

theorem beyond (all : AllAhead w.live allocated w.sys) :
    ¬ allocated w.sys.length ∧ ∀ write, w.live (.pipeEnd w.sys.length write) = 0 := by
  have ahead := all w.sys.length
  rw [pipeAt, getElem?_eq_none (Nat.le_refl _)] at ahead
  exact ahead

theorem created_ahead (all : AllAhead w.live allocated w.sys) :
    AllAhead w.created.live (fun j => allocated j ∨ j = w.sys.length) w.created.sys := by
  refine all.update (pipeAt_created w) ⟨inr rfl, ?_⟩ fun j other =>
    ⟨or_iff_left other, fun _ => rfl⟩
  have unused : ∀ write, w.created.live (.pipeEnd w.sys.length write) = 0 := (beyond all).2
  simp [unused]

theorem fileAlloc_ahead (there : allocated i) (write : Bool)
    (all : AllAhead w.live allocated w.sys) :
    AllAhead (w.fileAlloc pipeHooks (.pipeEnd i write)).live allocated
      (w.fileAlloc pipeHooks (.pipeEnd i write)).sys := by
  refine all.onOpen ?_ fun n => OpenFiles.live_fileAlloc pipeHooks _ n w
  rintro j end_ ⟨⟩
  exact there

/-- The two calls of the close hook free a pipe without files. -/
theorem undone {u : PipeFiles} (all : AllAhead w.live allocated w.sys)
    (ahead : AllAhead u.live (fun j => allocated j ∨ j = w.sys.length) u.sys)
    (same : ∀ n, u.live n = w.live n) :
    AllAhead u.live allocated
      ((u.sys.modify w.sys.length (·.close false)).modify w.sys.length (·.close true)) := by
  obtain ⟨free, unused⟩ := beyond all
  simp only [← same] at unused
  have new := ahead w.sys.length
  cases body : pipeAt u.sys w.sys.length with
  | none =>
    rw [body] at new
    exact absurd (inr rfl) new.1
  | some p =>
    rw [body] at new
    have refs : p.refCount = 2 := by simpa [unused] using new.2.2.2
    have first := pipeAt_modify (f := (·.close false)) (q := some (p.closed false)) body
      fun e body => by simp [PipeEntry.close, body, Pipe.closed, refs]
    have second := pipeAt_modify (f := (·.close true)) (q := none) (by rw [first, update_self])
      fun e body => by simp [PipeEntry.close, body, Pipe.closed, refs]
    rw [first, update_idem] at second
    exact ahead.update second ⟨free, unused⟩ fun j other => ⟨(or_iff_left other).symm, fun _ => rfl⟩

theorem alloc_unref {write : Bool} (there : allocated i) (all : AllAhead w.live allocated w.sys)
    (run :
      (w.fileAlloc pipeHooks (.pipeEnd i write)).fileUnref pipeHooks w.files.length = some w') :
    AllAhead w'.live allocated w'.sys ∧ ∀ n, w'.live n = w.live n := by
  refine ⟨fileUnref_keeps run _ (fileAlloc_ahead there write all), ?_⟩
  have last : (w.fileAlloc pipeHooks (.pipeEnd i write)).lastOf w.files.length =
      some (.pipeEnd i write) := by
    rw [OpenFiles.lastOf, OpenFiles.file_fileAlloc, if_pos rfl]
    rfl
  have dropped := OpenFiles.fileUnref_cases run
  rw [last] at dropped
  intro n
  have less := dropped.2.2 n
  rw [OpenFiles.live_fileAlloc] at less
  exact add_right_cancel less

theorem sysPipe_ahead {heap : PipeHeap} (all : AllAhead w.live allocated w.sys)
    (run : w.sysPipe heap = some w') :
    AllAhead w'.live (fun j => allocated j ∨ MakesPipe (.pipe heap) ∧ j = w.sys.length) w'.sys := by
  obtain ⟨pipe, readNode, writeNode, readFile, writeFile⟩ := heap
  have new := created_ahead all
  rw [sysPipe] at run
  split at run
  · rename_i made
    simp only [Bool.and_eq_true] at made
    obtain ⟨⟨rfl, rfl⟩, rfl⟩ := made
    cases readFile with
    | true =>
      cases writeFile with
      | true =>
        -- both files are there, and the pipe stays
        have read := fileAlloc_ahead (w := w.created) (inr rfl) false new
        have both := install_keeps run _ (fileAlloc_ahead (inr rfl) true read)
        simpa [MakesPipe] using both
      | false =>
        obtain ⟨u, dropped, run⟩ := bind_eq_some_iff.mp run
        cases run
        obtain ⟨ahead, same⟩ := alloc_unref (w := w.created) (inr rfl) new dropped
        exact (undone all ahead same).unmade (by simp [MakesPipe])
    | false =>
      cases writeFile with
      | true =>
        obtain ⟨u, dropped, run⟩ := bind_eq_some_iff.mp run
        cases run
        obtain ⟨ahead, same⟩ := alloc_unref (w := w.created) (inr rfl) new dropped
        exact (undone all ahead same).unmade (by simp [MakesPipe])
      | false =>
        cases run
        exact (undone all new fun _ => rfl).unmade (by simp [MakesPipe])
  · rename_i failed
    cases run
    refine all.unmade fun made => ?_
    cases made
    exact failed rfl

/-! ## Runs -/

theorem step_ahead {a : PipeAction} (all : AllAhead w.live allocated w.sys)
    (run : w.step a = some w') : AllAhead w'.live
      (fun j => allocated j ∨ MakesPipe a ∧ j = w.sys.length) w'.sys := by
  have quiet : Keeps w w' → ¬ MakesPipe a → AllAhead w'.live
      (fun j => allocated j ∨ MakesPipe a ∧ j = w.sys.length) w'.sys :=
    fun kept unmade => (kept _ all).unmade unmade
  cases a with
  | pipe heap => exact sysPipe_ahead all run
  | open_ heap =>
    obtain ⟨r, opened, rfl⟩ := map_eq_some_iff.mp run
    exact quiet (open_keeps opened) id
  | share a => exact quiet (share_keeps run) id
  | read fd size =>
    refine quiet ?_ id
    simp only [step, read] at run
    split at run
    · exact some.inj run ▸ .refl
    rename_i i p found
    obtain ⟨answer, answered, rfl⟩ := map_eq_some_iff.mp run
    exact setPipe_keeps found (Pipe.counts_pipeRead answered)
  | write fd data =>
    refine quiet ?_ id
    simp only [step, write] at run
    split at run
    · exact some.inj run ▸ .refl
    rename_i i p found
    obtain ⟨answer, answered, rfl⟩ := map_eq_some_iff.mp run
    exact setPipe_keeps found (Pipe.counts_pipeWrite answered)

/-- Along a run the books are kept, and a pipe is allocated at the end if one was at the
beginning or a call made one. -/
theorem run_ahead (actions : List PipeAction) {w w' : PipeFiles} {allocated : Nat → Prop}
    (all : AllAhead w.live allocated w.sys) (run : actions.foldlM step w = some w') :
    ∃ allocated', AllAhead w'.live allocated' w'.sys ∧
      ((∃ j, allocated' j) ↔ (∃ j, allocated j) ∨ ∃ a ∈ actions, MakesPipe a) := by
  induction actions generalizing w w' allocated with
  | nil =>
    cases run
    exact ⟨allocated, all, by simp⟩
  | cons a rest ih =>
    rw [foldlM_cons] at run
    obtain ⟨u, first, others⟩ := bind_eq_some_iff.mp run
    obtain ⟨last, ahead, count⟩ := ih (step_ahead all first) others
    refine ⟨last, ahead, ?_⟩
    rw [count, exists_or]
    simp only [exists_and_left, exists_eq, and_true, mem_cons, exists_eq_or_imp]
    exact or_assoc

theorem faithful_iff_none (all : AllAhead w.live allocated w.sys) :
    Faithful w ↔ ¬ ∃ j, allocated j := by
  constructor
  · rintro faithful ⟨i, there⟩
    have ahead := all i
    cases body : pipeAt w.sys i with
    | none =>
      rw [body] at ahead
      exact ahead.1 there
    | some p =>
      rw [body] at ahead
      obtain ⟨e, entry, body⟩ := bind_eq_some_iff.mp body
      exact Nat.succ_ne_self _ (ahead.2.1.symm.trans (faithful.counters i e p entry body).1)
  · intro none_allocated
    apply Faithful.of_counters
    intro i e p entry body
    have ahead := all i
    rw [pipeAt, entry, bind_some, body] at ahead
    exact absurd ⟨i, ahead.1⟩ none_allocated

end PipeFiles

/-- The counters of the pipes are right after a run exactly if none of its calls got a pipe
with both files: `pipe_create` has already counted the two ends that `file_alloc` counts, so
a reader of a pipe that was made never sees its end. -/
theorem pipes_faithful_iff {actions : List PipeAction} {w : PipeFiles}
    (run : actions.foldlM PipeFiles.step .start = some w) :
    Faithful w ↔ ∀ a ∈ actions, ¬ MakesPipe a := by
  have before : AllAhead PipeFiles.start.live (fun _ => False) PipeFiles.start.sys :=
    fun _ => ⟨id, fun _ => rfl⟩
  obtain ⟨allocated, all, count⟩ := PipeFiles.run_ahead actions before run
  rw [PipeFiles.faithful_iff_none all, count]
  simp

/-- A pipe, a copy of its read end, and the write end closed. -/
def abandonedReader : List PipeAction :=
  [.pipe ⟨true, true, true, true, true⟩, .share (.dup 3 0), .share (.close 4)]

/-- No descriptor of the write end is left and there is nothing to read, and yet a read
blocks. -/
theorem abandoned_reader_blocks :
    ∃ w, abandonedReader.foldlM PipeFiles.step .start = some w ∧
      w.live (.pipeEnd 0 true) = 0 ∧
      (∃ e p, w.sys[0]? = some e ∧ e.body = some p ∧ p.len = 0 ∧ p.writeOpen = 1 ∧
        (p.pipeRead 1).map Prod.fst = some .blocked) ∧
      ¬ Faithful w := by
  refine ⟨_, rfl, rfl, ⟨_, _, rfl, rfl, rfl, rfl, rfl⟩, ?_⟩
  intro faithful
  cases faithful.endOfFile 0 _ _ rfl rfl rfl rfl 1 Nat.one_pos

theorem pipes_faithful_iff_abandoned :
    ∃ w, abandonedReader.foldlM PipeFiles.step .start = some w ∧
      (Faithful w ↔ ∀ a ∈ abandonedReader, ¬ MakesPipe a) := by
  have run : (abandonedReader.foldlM PipeFiles.step PipeFiles.start).isSome = true := by
    decide +kernel
  obtain ⟨w, result⟩ := isSome_iff_exists.mp run
  exact ⟨w, result, pipes_faithful_iff result⟩

end CactKernel.Vfs
