import CactKernel.Vfs.Balance

/-! # Descriptor calls keep the balance

Each call is followed by the references it has in hand: a file that it made or
took from a queue is in hand until it is put into a slot or dropped. -/

set_option autoImplicit false

namespace CactKernel.Vfs

open Lib List Option Reach

/-- The references `held`, and one more for each file of the list. -/
def many (fs : List Nat) (held : Nat → Nat) (g : Nat) : Nat := held g + fs.count g

variable {proc : Proc}

namespace Kernel

def tableCount (f : Nat) : Option Proc → Nat
  | some proc => proc.files.count (some f)
  | none => 0

variable {k k' : Kernel} {f p fd i : Nat} {old : Option Nat}

theorem slots_congr (same : k'.procs = k.procs) : k'.slots = k.slots := by
  funext f
  simp only [slots, same]

theorem files_congr (same : k'.procs = k.procs) (p : Nat) : k'.files p = k.files p := by
  simp only [files, same]

theorem join_entry : k.procs[p]?.join = some proc ↔ k.procs[p]? = some (some proc) := by
  cases entry : k.procs[p]? with
  | none | some x => simp

theorem slots_setProc {before : Option Proc} (entry : k.procs[p]? = some before)
    (x : Option Proc) (f : Nat) :
    (k.setProc p x).slots f + tableCount f before = k.slots f + tableCount f x :=
  sum_set (tableCount f) x entry

theorem proc_of_slot (slot : (k.files p)[fd]? = some old) :
    ∃ proc, k.procs[p]? = some (some proc) ∧ k.files p = proc.files ∧
      proc.files[fd]? = some old ∧
      ∀ x, k.setFd p fd x = k.setProc p (some { proc with files := proc.files.set fd x }) := by
  cases entry : k.procs[p]?.join with
  | none => simp [files, entry] at slot
  | some proc =>
    have table : k.files p = proc.files := by simp only [files, entry]
    rw [table] at slot
    refine ⟨proc, join_entry.mp entry, table, slot, fun x => ?_⟩
    simp only [setFd, setFiles, entry, table, setProc]

theorem slot_of_getFile (found : k.getFile p fd = some f) : (k.files p)[fd]? = some (some f) := by
  unfold getFile at found
  cases entry : (k.files p)[fd]? with
  | none => simp [entry] at found
  | some x =>
    simp only [entry, join_some] at found
    rw [found]

theorem slots_setFd (slot : (k.files p)[fd]? = some old) (x : Option Nat) (f : Nat) :
    (k.setFd p fd x).slots f + (if old = some f then 1 else 0) =
      k.slots f + (if x = some f then 1 else 0) := by
  obtain ⟨proc, entry, _, place, update⟩ := proc_of_slot slot
  have outer := slots_setProc entry (some { proc with files := proc.files.set fd x }) f
  have inner := count_set (some f) x place
  rw [update]
  simp only [tableCount] at outer
  omega

theorem files_setFd (slot : (k.files p)[fd]? = some old) (x : Option Nat) :
    (k.setFd p fd x).files p = (k.files p).set fd x := by
  obtain ⟨proc, entry, table, _, update⟩ := proc_of_slot slot
  have inside := (List.getElem?_eq_some_iff.mp entry).1
  rw [update, table]
  simp [files, setProc, List.getElem?_set_self inside]

theorem slots_filled (slot : (k.files p)[fd]? = some none) (f : Nat) :
    (k.setFd p fd (some f)).slots = many [f] k.slots := by
  funext g
  have moved := slots_setFd slot (some f) g
  simpa [many, count_cons] using moved

theorem slots_emptied (slot : (k.files p)[fd]? = some (some f)) :
    k.slots = many [f] (k.setFd p fd none).slots := by
  funext g
  have moved := slots_setFd slot none g
  simpa [many, count_cons] using moved.symm

theorem slots_of_slot (slot : (k.files p)[fd]? = some (some f)) : 0 < k.slots f := by
  rw [slots_emptied slot]
  simp [many]

theorem unrefAll_procs (fs : List Nat) (k : Kernel) : (k.unrefAll fs).procs = k.procs := by
  induction fs generalizing k with
  | nil => rfl
  | cons f fs ih => exact (ih _).trans (release_procs _ k)

theorem socketOf_used {e : Nat} (found : k.socketOf p fd = some e) :
    (k.endpoint e).used = true := by
  unfold socketOf at found
  split at found
  · split at found
    · split at found
      · rename_i both
        cases found
        exact (Bool.and_eq_true_iff.mp both).2
      · cases found
    · cases found
  · cases found

theorem freeSlot_some {files : List (Option Nat)} {start : Nat}
    (found : freeSlot files start = some i) : start ≤ i ∧ files[i]? = some none := by
  unfold freeSlot at found
  obtain ⟨j, place, rfl⟩ := map_eq_some_iff.mp found
  obtain ⟨inside, empty, _⟩ := findIdx?_eq_some_iff_getElem.mp place
  refine ⟨Nat.le_add_right _ _, ?_⟩
  rw [← getElem?_drop, getElem?_eq_getElem inside]
  exact congrArg some (isNone_iff_eq_none.mp empty)

theorem freeSlot_isSome {files : List (Option Nat)} {start : Nat} (above : start ≤ i)
    (empty : files[i]? = some none) : ∃ j, freeSlot files start = some j := by
  cases found : freeSlot files start with
  | some j => exact ⟨j, rfl⟩
  | none =>
    unfold freeSlot at found
    rw [map_eq_none_iff, findIdx?_eq_none_iff] at found
    have member : none ∈ files.drop start := by
      refine mem_of_getElem? (i := i - start) ?_
      rw [getElem?_drop, Nat.add_sub_cancel' above, empty]
    exact absurd (found none member) (by simp)

end Kernel

/-! ## References in hand -/

variable {fs : List Nat}

namespace Ledger

open Kernel

variable {held : Nat → Nat} {todo : List Work} {k k' : Kernel} {f p fd : Nat}

theorem setProc (books : Ledger held todo k) (x : Option Proc) : Ledger held todo (k.setProc p x) :=
  ⟨books.refs, books.opens, books.linked⟩

theorem setFd (books : Ledger held todo k) (x : Option Nat) :
    Ledger held todo (k.setFd p fd x) := by
  unfold Kernel.setFd setFiles
  split
  · exact ⟨books.refs, books.opens, books.linked⟩
  · exact books

theorem unrefOne (books : Ledger (many (f :: fs) held) [] k) :
    Ledger (many fs held) [] (k.release [.unref f]) :=
  Ledger.release (books.move fun g => by simp [many, Work.drops, count_cons, Nat.add_assoc])

theorem unrefAll : ∀ {k : Kernel}, Ledger (many fs held) [] k → Ledger held [] (k.unrefAll fs) := by
  induction fs with
  | nil => exact fun books => books
  | cons f fs ih => exact fun books => ih books.unrefOne

theorem object_of_held (books : Ledger held todo k) (some_held : 0 < held f) :
    ∃ file, k.object f = some file := by
  have counted := books.refs f
  cases found : k.object f with
  | some file => exact ⟨file, rfl⟩
  | none =>
    simp only [refcount, found] at counted
    omega

/-- A file gets new values and `n` more references. -/
theorem setFile {file : File} (books : Ledger held [] k) (found : k.object f = some file) (n : Nat)
    (cloexec : Bool) :
    Ledger (fun g => held g + if g = f then n else 0) [] (k.setObject f (some { file with
      refcount := file.refcount + n, cloexec := cloexec })) := by
  refine ⟨fun g => ?_, fun node => ?_, books.linked⟩
  · have counted := books.refs g
    rw [refcount_setObject (by rw [found]; rfl)]
    change _ = held g + _ + k.queued g + 0
    simp only [pending_nil] at counted
    split
    · rename_i same
      simp only [same, refcount, found] at counted ⊢
      omega
    · omega
  · have moved := live_setObject found
      (some { file with refcount := file.refcount + n, cloexec := cloexec }) node
    have before := books.opens node
    change k.opens node = k.closes node + (k.setObject f _).live node
    dsimp only at moved
    omega

theorem fileRef (books : Ledger held [] k) (some_held : 0 < held f) :
    Ledger (many [f] held) [] (k.fileRef f) := by
  obtain ⟨file, found⟩ := books.object_of_held some_held
  simp only [Kernel.fileRef, found]
  refine (books.setFile found 1 file.cloexec).move fun g => ?_
  simp [many, count_singleton, eq_comm (a := f)]

theorem fileAlloc (books : Ledger held [] k) (node : Node) (flags : Nat) :
    Ledger (many [k.objects.length] held) [] (k.fileAlloc node flags) := by
  have absent : k.refcount k.objects.length = 0 := by
    simp [refcount, object]
  refine ⟨fun g => ?_, fun other => ?_, books.linked⟩
  · have counted := books.refs g
    have made : (k.fileAlloc node flags).refcount g =
        if g = k.objects.length then 1 else k.refcount g := by
      simp only [refcount, object, Kernel.fileAlloc, openVfs]
      by_cases fresh : g = k.objects.length
      · subst fresh
        simp
      rw [if_neg fresh]
      by_cases inside : g < k.objects.length
      · rw [getElem?_append_left inside]
      · rw [getElem?_eq_none (by simp; omega), getElem?_eq_none (by omega)]
    rw [made]
    change _ = held g + [k.objects.length].count g + k.queued g + 0
    simp only [pending_nil] at counted
    by_cases fresh : g = k.objects.length
    · subst fresh
      rw [if_pos rfl, count_singleton_self]
      omega
    · rw [if_neg fresh, count_singleton, if_neg (by simpa using Ne.symm fresh)]
      omega
  · have before := books.opens other
    have grown : (k.fileAlloc node flags).live other =
        k.live other + (if node = other then 1 else 0) := by
      simp [live, Kernel.fileAlloc, openVfs]
    rw [grown]
    simp only [Kernel.fileAlloc, openVfs]
    by_cases here : node = other
    · subst here
      rw [Function.update_self, if_pos rfl]
      omega
    · rw [Function.update_of_ne (Ne.symm here), if_neg here]
      omega

theorem setQueue {held' : Nat → Nat} {q : Nat} (books : Ledger held [] k)
    (used : (k.endpoint q).used = true) (queue : List Nat)
    (same : ∀ f, held f + (k.endpoint q).fdq.count f = held' f + queue.count f) :
    Ledger held' [] (k.setEndpoint q { k.endpoint q with fdq := queue }) := by
  refine ⟨fun f => ?_, books.opens, fun a b joined => ?_⟩
  · have counted := books.refs f
    have passed := same f
    have moved := queued_setEndpoint (inside_of_used used) { k.endpoint q with fdq := queue } f
    change k.refcount f = _
    generalize (k.setEndpoint q _).queued f = after at moved ⊢
    simp only [Endpoint.holds, used, if_true] at moved
    simp only [pending_nil] at counted ⊢
    omega
  · rw [field_same (x := { k.endpoint q with fdq := queue }) Endpoint.peer rfl] at joined ⊢
    rw [field_same (x := { k.endpoint q with fdq := queue }) Endpoint.used rfl]
    exact books.linked a b joined

end Ledger

/-! ## The calls -/

def Kernel.Tables (k : Kernel) : Prop :=
  ∀ (p : Nat) (proc : Proc), k.procs[p]? = some (some proc) → proc.files.length = maxFd

section Tables

open Kernel

variable {k k' : Kernel} {p : Nat} {x : Option Proc}

theorem Kernel.Tables.congr (tables : k.Tables) (same : k'.procs = k.procs) : k'.Tables :=
  fun p proc entry => tables p proc (same ▸ entry)

theorem Kernel.Tables.setProc (tables : k.Tables)
    (full : ∀ proc, x = some proc → proc.files.length = maxFd) : (k.setProc p x).Tables := by
  intro q proc entry
  simp only [Kernel.setProc, getElem?_set] at entry
  split at entry
  · split at entry
    · exact full proc (some.inj entry)
    · cases entry
  · exact tables q proc entry

theorem Kernel.Tables.setFd {fd : Nat} {old : Option Nat} (tables : k.Tables)
    (slot : (k.files p)[fd]? = some old) (y : Option Nat) : (k.setFd p fd y).Tables := by
  obtain ⟨before, found, _, _, update⟩ := proc_of_slot slot
  rw [update]
  refine tables.setProc fun proc same => ?_
  cases same
  rw [List.length_set]
  exact tables p before found

end Tables

structure Sound (k : Kernel) : Prop where
  books : Ledger k.slots [] k
  tables : k.Tables

/-- The calls have the files of the list in hand. -/
structure Holding (fs : List Nat) (k : Kernel) : Prop where
  books : Ledger (many fs k.slots) [] k
  tables : k.Tables

namespace Holding

open Kernel

variable {k k' : Kernel} {f p fd i : Nat} {gs : List Nat}

theorem sound (holding : Holding [] k) : Sound k := ⟨holding.books, holding.tables⟩

theorem perm (holding : Holding fs k) (same : fs.Perm gs) : Holding gs k :=
  ⟨holding.books.move fun g => by simp only [many, same.count_eq], holding.tables⟩

theorem take (tables : k.Tables) (same : k'.procs = k.procs)
    (books : Ledger (many [f] (many fs k.slots)) [] k') : Holding (f :: fs) k' := by
  refine ⟨books.move fun g => ?_, tables.congr same⟩
  rw [slots_congr same]
  simp only [many, count_cons, count_nil]
  omega

theorem fileAlloc (holding : Holding fs k) (node : Node) (flags : Nat) :
    Holding (k.objects.length :: fs) (k.fileAlloc node flags) :=
  take holding.tables rfl (holding.books.fileAlloc node flags)

@[simp] theorem fileRef_procs (k : Kernel) (f : Nat) : (k.fileRef f).procs = k.procs := by
  unfold Kernel.fileRef
  split <;> rfl

theorem fileRef (holding : Holding fs k) (found : k.getFile p fd = some f) :
    Holding (f :: fs) (k.fileRef f) :=
  take holding.tables (fileRef_procs k f) (holding.books.fileRef
    (Nat.lt_of_lt_of_le (slots_of_slot (slot_of_getFile found)) (Nat.le_add_right _ _)))

theorem install (holding : Holding (f :: fs) k) (slot : (k.files p)[i]? = some none) :
    Holding fs (k.setFd p i (some f)) := by
  refine ⟨(holding.books.setFd (some f)).move fun g => ?_, holding.tables.setFd slot (some f)⟩
  rw [slots_filled slot]
  simp only [many, count_cons, count_nil]
  omega

theorem drop (holding : Holding (f :: fs) k) : Holding fs (k.release [.unref f]) := by
  refine ⟨?_, holding.tables.congr (release_procs _ k)⟩
  rw [slots_congr (release_procs _ k)]
  exact holding.books.unrefOne

theorem dropAll (holding : Holding fs k) : Sound (k.unrefAll fs) := by
  refine ⟨?_, holding.tables.congr (unrefAll_procs fs k)⟩
  rw [slots_congr (unrefAll_procs fs k)]
  exact holding.books.unrefAll

end Holding

namespace Sound

open Kernel

variable {k k' : Kernel} {f p fd i : Nat} {x : Option Nat}

theorem congr (tables : k.Tables) (same : k'.procs = k.procs) (books : Ledger k.slots [] k') :
    Sound k' := by
  refine ⟨?_, tables.congr same⟩
  rw [slots_congr same]
  exact books

theorem slot_inside (sound : Sound k) (found : k.getFile p fd = some f) (inside : i < maxFd) :
    ∃ old, (k.files p)[i]? = some old := by
  obtain ⟨proc, entry, table, _⟩ := proc_of_slot (slot_of_getFile found)
  rw [table]
  exact ⟨_, getElem?_eq_getElem (by rw [sound.tables p proc entry]; exact inside)⟩

theorem holding (sound : Sound k) : Holding [] k := ⟨sound.books, sound.tables⟩

theorem close (sound : Sound k) (slot : (k.files p)[fd]? = some (some f)) :
    Sound ((k.setFd p fd none).release [.unref f]) := by
  have books : Ledger (many [f] (k.setFd p fd none).slots) [] (k.setFd p fd none) := by
    rw [← slots_emptied slot]
    exact sound.books.setFd none
  exact (Holding.drop ⟨books, sound.tables.setFd slot none⟩).sound

theorem sysClose (sound : Sound k) : Sound (k.sysClose p fd).2 := by
  unfold Kernel.sysClose
  split
  · exact sound
  · rename_i f found
    exact sound.close (slot_of_getFile found)

theorem allocFd (sound : Sound k) (node : Node) (heap : Bool) :
    Sound (k.allocFd p node heap).2 := by
  unfold Kernel.allocFd
  split
  · dsimp only
    split
    · rename_i i found
      exact ((sound.holding.fileAlloc node 0).install (freeSlot_some found).2).sound
    · exact (sound.holding.fileAlloc node 0).drop.sound
  · exact sound

theorem sysOpen (sound : Sound k) (node : Node) (flags : Nat) (heap truncated : Bool) :
    Sound (k.sysOpen p node flags heap truncated).2 := by
  unfold Kernel.sysOpen
  split
  · dsimp only
    split
    · rename_i i found
      have slot := (freeSlot_some found).2
      have filled := ((sound.holding.fileAlloc node flags).install slot).sound
      split
      · refine filled.close ?_
        rw [files_setFd slot, List.getElem?_set_self (List.getElem?_eq_some_iff.mp slot).1]
      · exact filled
    · exact (sound.holding.fileAlloc node flags).drop.sound
  · exact sound

theorem dupFrom (sound : Sound k) (start : Nat) : Sound (k.dupFrom p fd start).2 := by
  unfold Kernel.dupFrom
  split
  · exact sound
  rename_i f found
  split
  · rename_i i free
    refine ((sound.holding.fileRef found).install ?_).sound
    rw [files_congr (Holding.fileRef_procs k f)]
    exact (freeSlot_some free).2
  · exact sound

theorem fdctlDup2 (sound : Sound k) (newfd : Nat) : Sound (k.fdctlDup2 p fd newfd).2 := by
  unfold Kernel.fdctlDup2
  split
  · exact sound
  rename_i f found
  split
  · exact sound
  rename_i small
  split
  · exact sound
  obtain ⟨old, slot⟩ := sound.slot_inside found (Nat.lt_of_not_le small)
  have shared : ((k.fileRef f).files p)[newfd]? = some old := by
    rw [files_congr (Holding.fileRef_procs k f)]
    exact slot
  have holding := sound.holding.fileRef found
  split
  · rename_i other taken
    rw [slot_of_getFile taken] at slot
    cases slot
    refine (Holding.drop ⟨(holding.books.setFd (some f)).move fun g => ?_,
      holding.tables.setFd shared (some f)⟩).sound
    have moved := slots_setFd shared (some f) g
    simp only [some.injEq] at moved
    simp only [many, count_singleton, beq_iff_eq, pending_nil]
    omega
  · rename_i empty
    simp only [getFile, slot, join_some] at empty
    subst empty
    exact (holding.install shared).sound

theorem sysFcntl (sound : Sound k) (cmd : Fcntl) : Sound (k.sysFcntl p fd cmd).2 := by
  cases cmd with
  | dupFd start =>
    simp only [Kernel.sysFcntl]
    split
    · exact sound
    · exact sound.dupFrom start
  | getFd =>
    simp only [Kernel.sysFcntl]
    split <;> exact sound
  | setFd cloexec =>
    simp only [Kernel.sysFcntl]
    split
    · exact sound
    rename_i f _
    split
    · rename_i file found
      exact congr sound.tables rfl ((sound.books.setFile found 0 cloexec).move fun g => by simp)
    · exact sound

theorem sysPipe (sound : Sound k) : Sound (k.sysPipe p true true).2 := by
  have first : Holding [] ({ k with pipes := k.pipes + 1 } : Kernel) :=
    ⟨⟨sound.books.refs, sound.books.opens, sound.books.linked⟩, sound.tables⟩
  have made := ((first.fileAlloc (.pipeEnd k.pipes false) 0).fileAlloc
    (.pipeEnd k.pipes true) 0).perm (.swap ..)
  unfold Kernel.sysPipe
  simp only [if_true, Bool.and_self]
  split
  · exact made.drop.drop.sound
  rename_i rfd readSlot
  split
  · exact made.drop.drop.sound
  rename_i wfd writeSlot
  obtain ⟨_, readEmpty⟩ := freeSlot_some readSlot
  obtain ⟨above, writeEmpty⟩ := freeSlot_some writeSlot
  refine ((made.install readEmpty).install ?_).sound
  rw [files_setFd readEmpty, getElem?_set_ne (by omega)]
  exact writeEmpty

/-! ## Sockets -/

theorem socketNodes (sound : Sound k) : Sound k.socketNodes := by
  have old : ∀ e, e < k.endpoints.length → k.socketNodes.endpoint e = k.endpoint e := by
    intro e inside
    simp only [endpoint, Kernel.socketNodes, getElem?_append_left inside]
  refine congr sound.tables rfl ⟨fun f => ?_, sound.books.opens, fun e q link => ?_⟩
  · have grown : k.socketNodes.queued f = k.queued f := by
      simp [queued, Kernel.socketNodes]
    rw [grown]
    exact sound.books.refs f
  · by_cases inside : e < k.endpoints.length
    · rw [old e inside] at link
      have other := (sound.books.linked e q link)
      rw [old q (inside_of_used other.1)]
      exact other
    have place : e = k.endpoints.length ∨ e = k.endpoints.length + 1 := by
      have := inside_of_peer link
      simp only [Kernel.socketNodes, length_append, length_cons, length_nil] at this
      omega
    rcases place with rfl | rfl
    · have second : q = k.endpoints.length + 1 := by
        simpa [endpoint, Kernel.socketNodes] using link.symm
      subst second
      simp [endpoint, Kernel.socketNodes]
    · have first : q = k.endpoints.length := by
        simpa [endpoint, Kernel.socketNodes] using link.symm
      subst first
      simp [endpoint, Kernel.socketNodes]

theorem allocFd_some (node : Node) (above : 3 ≤ i) (empty : (k.files p)[i]? = some none) :
    ∃ j, k.allocFd p node true =
      (some j, (k.fileAlloc node 0).setFd p j (some k.objects.length)) ∧
      (k.files p)[j]? = some none := by
  obtain ⟨j, found⟩ := freeSlot_isSome above empty
  refine ⟨j, ?_, (freeSlot_some found).2⟩
  have same : (k.fileAlloc node 0).files p = k.files p := rfl
  simp [Kernel.allocFd, same, found]

theorem unixSocketpair (sound : Sound k) {j : Nat} (low : 3 ≤ i) (high : 3 ≤ j) (apart : i ≠ j)
    (first : (k.files p)[i]? = some none) (second : (k.files p)[j]? = some none) :
    Sound (k.unixSocketpair p true true).2 := by
  have nodes := sound.socketNodes
  obtain ⟨a, made, slot⟩ := allocFd_some (k := k.socketNodes) (.socket k.endpoints.length) low first
  have one := nodes.allocFd (p := p) (.socket k.endpoints.length) true
  unfold Kernel.unixSocketpair
  dsimp only
  rw [made] at one ⊢
  dsimp only at one ⊢
  generalize entry : (k.socketNodes.fileAlloc (.socket k.endpoints.length) 0).setFd p a
    (some k.socketNodes.objects.length) = filled at one ⊢
  -- one of the two slots is still empty
  have left : ∃ c, 3 ≤ c ∧ (filled.files p)[c]? = some none := by
    have table : filled.files p = (k.files p).set a (some k.socketNodes.objects.length) := by
      rw [← entry]
      exact files_setFd (k := k.socketNodes.fileAlloc _ 0) slot _
    rw [table]
    by_cases same : a = i
    · exact ⟨j, high, by rw [getElem?_set_ne (by omega)]; exact second⟩
    · exact ⟨i, low, by rw [getElem?_set_ne same]; exact first⟩
  obtain ⟨c, above, empty⟩ := left
  obtain ⟨b, last, _⟩ := allocFd_some (k := filled) (.socket (k.endpoints.length + 1)) above empty
  have two := one.allocFd (p := p) (.socket (k.endpoints.length + 1)) true
  rw [last] at two ⊢
  exact two

theorem holdFiles (p : Nat) : ∀ (fds : List Nat) {held : List Nat} {k : Kernel}, Holding held k →
    match k.holdFiles p fds held with
    | .ok (all, k') => Holding all k'
    | .error k' => Sound k' := by
  intro fds
  induction fds with
  | nil => exact fun holding => holding
  | cons fd fds ih =>
    intro held k holding
    simp only [Kernel.holdFiles]
    cases found : k.getFile p fd with
    | some f => exact ih ((holding.fileRef found).perm (perm_append_singleton f held).symm)
    | none => exact holding.dropAll

theorem unixSendmsg (sound : Sound k) (fds : List Nat) : Sound (k.unixSendmsg p fd fds).2 := by
  unfold Kernel.unixSendmsg
  split
  · exact sound
  rename_i e _
  split
  · exact sound
  have holding := holdFiles p fds sound.holding
  split
  · rename_i k' stopped
    rw [stopped] at holding
    exact holding
  rename_i all k' taken
  rw [taken] at holding
  split
  · exact holding.dropAll
  rename_i q link
  dsimp only
  split
  · exact holding.dropAll
  obtain ⟨used, _⟩ := holding.books.linked e q link
  refine ⟨holding.books.setQueue used _ fun f => ?_, holding.tables⟩
  simp only [many, count_append]
  change k'.slots f + all.count f + _ = k'.slots f + _
  omega

theorem installFiles : ∀ {k : Kernel}, Holding fs k → Sound (k.installFiles p fs) := by
  induction fs with
  | nil => exact fun holding => holding.sound
  | cons f fs ih =>
    intro k holding
    simp only [Kernel.installFiles]
    cases found : freeSlot (k.files p) 3 with
    | some slot => exact ih (holding.install (freeSlot_some found).2)
    | none => exact ih holding.drop

theorem unixRecvmsg (sound : Sound k) (cap : Nat) (payload : Bool) :
    Sound (k.unixRecvmsg p fd cap payload).2 := by
  unfold Kernel.unixRecvmsg
  split
  · exact sound
  rename_i e node
  split
  · exact sound
  split
  · exact sound
  dsimp only
  generalize min (min cap (k.endpoint e).fdq.length) _ = want
  refine installFiles ⟨sound.books.setQueue (socketOf_used node) _ fun f => ?_, sound.tables⟩
  have parts : (k.endpoint e).fdq.count f =
      ((k.endpoint e).fdq.take want).count f + ((k.endpoint e).fdq.drop want).count f := by
    rw [← count_append, take_append_drop]
  change k.slots f + _ = k.slots f + ((k.endpoint e).fdq.take want).count f + _
  omega

/-! ## Processes -/

theorem append (sound : Sound k) (proc : Proc) (length : proc.files.length = maxFd)
    (empty : ∀ f, proc.files.count (some f) = 0) :
    Sound { k with procs := k.procs ++ [some proc] } := by
  have same : ({ k with procs := k.procs ++ [some proc] } : Kernel).slots = k.slots := by
    funext f
    simp [slots, empty f]
  refine ⟨?_, fun q other entry => ?_⟩
  · rw [same]
    exact ⟨sound.books.refs, sound.books.opens, sound.books.linked⟩
  · by_cases inside : q < k.procs.length
    · rw [getElem?_append_left inside] at entry
      exact sound.tables q other entry
    have last : q = k.procs.length := by
      have := (List.getElem?_eq_some_iff.mp entry).1
      simp only [length_append, length_cons, length_nil] at this
      omega
    subst last
    simp only [getElem?_concat_length, some.injEq] at entry
    rw [← entry]
    exact length

theorem spawn (sound : Sound k) : Sound k.spawn :=
  sound.append ⟨false, replicate maxFd none⟩ (length_replicate ..)
    fun f => by simp [count_replicate]

theorem openFiles_count (files : List (Option Nat)) (f : Nat) :
    (openFiles files).count f = files.count (some f) := by
  induction files with
  | nil => rfl
  | cons slot files ih =>
    cases slot with
    | none => simpa [openFiles] using ih
    | some g => simpa [openFiles, count_cons] using ih

theorem taskFork (sound : Sound k) (entry : k.procs[p]? = some (some proc))
    (empty : ∀ slot ∈ k.files p, slot = none) (heap : Bool) : Sound (k.taskFork p heap) := by
  have table : k.files p = proc.files := by simp only [files, join_entry.mpr entry]
  have nothing : openFiles (k.files p) = [] := by
    rw [openFiles, filterMap_eq_nil_iff]
    exact fun slot member => empty slot member
  unfold Kernel.taskFork
  simp only [nothing, refFiles, openNodes, foldl_nil]
  split
  · refine sound.append ⟨false, k.files p⟩ (by rw [table]; exact sound.tables p proc entry) ?_
    intro f
    rw [count_eq_zero]
    exact fun member => absurd (empty _ member) (by simp)
  · exact sound

theorem closeOnExec (sound : Sound k) : Sound (k.closeOnExec p fd) := by
  unfold Kernel.closeOnExec
  split
  · exact sound
  rename_i f found
  split
  · split
    · have slot := slot_of_getFile found
      have same : ((k.release [.unref f]).files p)[fd]? = some (some f) := by
        rw [files_congr (release_procs _ k)]
        exact slot
      refine ⟨Ledger.setFd ?_ none, (sound.tables.congr (release_procs _ k)).setFd same none⟩
      have inHand : Ledger (many [f] (k.setFd p fd none).slots) [] k := by
        rw [← slots_emptied slot]
        exact sound.books
      have kept : Ledger (k.setFd p fd none).slots [] _ := inHand.unrefOne
      refine kept.move fun g => ?_
      have before := slots_setFd slot none g
      have after := slots_setFd same none g
      rw [slots_congr (release_procs _ k)] at after
      omega
    · exact sound
  · exact sound

theorem taskExec (sound : Sound k) : Sound (k.taskExec p) := by
  have all : ∀ (fds : List Nat) (k : Kernel), Sound k →
      Sound (fds.foldl (Kernel.closeOnExec p) k) := by
    intro fds
    induction fds with
    | nil => intro k sound; exact sound
    | cons fd fds ih => intro k sound; exact ih _ sound.closeOnExec
  exact all _ k sound

theorem exit (sound : Sound k) (entry : k.procs[p]? = some (some proc)) :
    Sound (k.setProc p (some { proc with zombie := true })) := by
  have same : (k.setProc p (some { proc with zombie := true })).slots = k.slots := by
    funext f
    have moved := slots_setProc entry (some { proc with zombie := true }) f
    simp only [tableCount] at moved
    omega
  refine ⟨?_, sound.tables.setProc fun other changed => ?_⟩
  · rw [same]
    exact sound.books.setProc _
  · cases changed
    exact sound.tables p proc entry

theorem reap (sound : Sound k) (entry : k.procs[p]? = some (some proc)) :
    Sound (k.reap p) := by
  have table : k.files p = proc.files := by simp only [files, join_entry.mpr entry]
  have inHand : Ledger (many (openFiles proc.files) (k.setProc p none).slots) [] k := by
    refine sound.books.move fun f => ?_
    have moved := slots_setProc entry none f
    simp only [tableCount] at moved
    simp only [many, openFiles_count]
    omega
  unfold Kernel.reap
  rw [table]
  have same : ((k.unrefAll (openFiles proc.files)).setProc p none).slots =
      (k.setProc p none).slots :=
    slots_congr (by simp only [setProc, unrefAll_procs])
  refine ⟨?_, (sound.tables.congr (unrefAll_procs _ k)).setProc nofun⟩
  rw [same]
  exact inHand.unrefAll.setProc none

theorem balanced (sound : Sound k) : k.Balanced := by
  refine ⟨sound.books.opens, fun f file found => ?_⟩
  have counted := sound.books.refs f
  simpa [refcount, found] using counted

end Sound

/-! ## Runs -/

namespace Kernel

/-- The parent of a fork has no open descriptor, a pipe gets memory for both of its
files, and a socket pair gets memory and two slots. -/
def Affordable (k : Kernel) : Action → Prop
  | .call p (.fork _) => ∀ slot ∈ k.files p, slot = none
  | .call _ (.pipe heapRead heapWrite) => heapRead = true ∧ heapWrite = true
  | .call p (.socketpair heapA heapB) => heapA = true ∧ heapB = true ∧
      ∃ i j, 3 ≤ i ∧ 3 ≤ j ∧ i ≠ j ∧ (k.files p)[i]? = some none ∧ (k.files p)[j]? = some none
  | _ => True

theorem init_sound : Sound init := by
  refine ⟨⟨fun f => ?_, fun node => rfl, fun e q link => ?_⟩, fun p proc entry => ?_⟩
  · simp [refcount, object, init, slots, queued, count_replicate]
  · simp [endpoint, init] at link
  · have first : p = 0 := by
      have := (List.getElem?_eq_some_iff.mp entry).1
      simp only [init, length_cons, length_nil] at this
      omega
    subst first
    simp only [init, getElem?_cons_zero, some.injEq] at entry
    rw [← entry]
    exact length_replicate ..

theorem perform_sound {k : Kernel} {p : Nat} {c : Call} (sound : Sound k)
    (entry : k.procs[p]? = some (some proc)) (affordable : k.Affordable (.call p c)) :
    Sound (k.perform p c) := by
  cases c with
  | spawn => exact sound.spawn
  | openNode node flags heap truncated => exact sound.sysOpen _ flags heap truncated
  | close fd => exact sound.sysClose
  | dup fd => exact sound.dupFrom 0
  | dup2 fd newfd => exact sound.fdctlDup2 newfd
  | fcntl fd cmd => exact sound.sysFcntl cmd
  | pipe heapRead heapWrite =>
    obtain ⟨rfl, rfl⟩ := affordable
    exact sound.sysPipe
  | socketpair heapA heapB =>
    obtain ⟨rfl, rfl, i, j, low, high, apart, first, second⟩ := affordable
    exact sound.unixSocketpair low high apart first second
  | sendmsg fd fds => exact sound.unixSendmsg fds
  | recvmsg fd cap payload => exact sound.unixRecvmsg cap payload
  | fork heap => exact sound.taskFork entry affordable heap
  | exec => exact sound.taskExec
  | exit =>
    simp only [perform, join_entry.mpr entry, map_some]
    exact sound.exit entry

theorem step_sound {k t : Kernel} {a : Action} (sound : Sound k) (affordable : k.Affordable a)
    (move : k.step a = some t) : Sound t := by
  cases a with
  | call p c =>
    simp only [step] at move
    split at move
    · rename_i proc found
      split at move
      · cases move
      · cases move
        exact perform_sound sound (join_entry.mp found) affordable
    · cases move
  | reap p =>
    simp only [step] at move
    split at move
    · rename_i proc found
      split at move
      · cases move
        exact sound.reap (join_entry.mp found)
      · cases move
    · cases move

end Kernel

/-- In every run in which no process forks with an open descriptor and every pipe and
socket pair finds the memory and the slots that it needs, the opens of a node exceed
its closes by its live files, and every file counts the slots and queue entries
that hold it. -/
theorem descriptors_balanced {k : Kernel}
    (reached : Reach (· = Kernel.init)
      (restrict Kernel.Affordable fun k a t => k.step a = some t) k) : k.Balanced := by
  have sound : Sound k := by
    refine invariant Sound ?_ ?_ reached
    · rintro s rfl
      exact Kernel.init_sound
    · rintro s a t sound ⟨affordable, move⟩
      exact Kernel.step_sound sound affordable move
  exact sound.balanced

/-- A file is opened, duplicated and passed on to the process itself over a socket
pair. -/
theorem descriptors_balanced_passed_on :
    ∃ k, ([Action.call 0 (.openNode 0 0 true true), .call 0 (.socketpair true true),
        .call 0 (.sendmsg 4 [3, 3]), .call 0 (.close 3)].foldlM Kernel.step Kernel.init = some k) ∧
      k.refcount 0 = 2 ∧ k.queued 0 = 2 ∧ k.Balanced := by
  refine ⟨_, rfl, by decide +kernel, by decide +kernel, descriptors_balanced ?_⟩
  refine next (a := .call 0 (.close 3)) (next (a := .call 0 (.sendmsg 4 [3, 3]))
    (next (a := .call 0 (.socketpair true true))
      (next (a := .call 0 (.openNode 0 0 true true)) (start rfl)
        ⟨trivial, rfl⟩) ⟨⟨rfl, rfl, 4, 5, ?_⟩, rfl⟩) ⟨trivial, rfl⟩) ⟨trivial, rfl⟩
  decide +kernel

/-- A process opens a file and forks: the node has been opened twice for one file. -/
theorem fork_opens_twice :
    ∃ k, Reach (· = Kernel.init) (fun k a t => Kernel.step k a = some t) k ∧ ¬ k.Balanced := by
  refine ⟨_, .of_foldlM (fun _ _ _ move => move)
    [Action.call 0 (.openNode 0 0 true true), .call 0 (.fork true)] (.start rfl) rfl, ?_⟩
  intro balanced
  exact absurd (balanced.opens (.named 0)) (by decide +kernel)

end CactKernel.Vfs
