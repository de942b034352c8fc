import CactKernel.Block.PageLaws

/-! # Steps of the page cache

Each part of an operation of the cache is defined where the laws hold, and keeps them. -/

set_option autoImplicit false

namespace CactKernel.PageCache

open Function (update update_of_ne update_self update_apply)
open Lib List Option Nat Bool

/-! ## Buffers -/

variable {x : Page}

section Buffers

variable {page : Nat → Page} {tasks : List Task} {live : Nat → Bool} {i p : Nat} {t s : Task}

theorem frees_set (at_i : tasks[i]? = some t) (s : Task) (b : Nat) :
    ((tasks.set i s).map fun u => u.pc.frees b).sum + t.pc.frees b =
      (tasks.map fun u => u.pc.frees b).sum + s.pc.frees b := by
  have moved := sum_set (fun u : Task => u.pc.frees b) s at_i
  omega

variable {b : Nat}

theorem BufferLaw.fill (law : BufferLaw page tasks live)
    (at_i : tasks[i]? = some t) (frees : ∀ b, s.pc.frees b = t.pc.frees b)
    (new : x.data = some b) (unused : live b = false) :
    BufferLaw (update page p x) (tasks.set i s) (update live b true) := by
  have still : ∀ c, ((tasks.set i s).map fun u => u.pc.frees c).sum =
      (tasks.map fun u => u.pc.frees c).sum := by
    intro c
    have moved := frees_set at_i s c
    rw [frees c] at moved
    omega
  have quiet : (tasks.map fun u => u.pc.frees b).sum = 0 := by
    by_contra some_free
    have in_use := law.freeing b (Nat.pos_of_ne_zero some_free)
    rw [unused] at in_use
    cases in_use
  have elsewhere : ∀ q, (page q).data ≠ some b := by
    intro q has
    have in_use := law.backed q b has
    rw [unused] at in_use
    cases in_use
  have data : ∀ q c, (update page p x q).data = some c →
      q = p ∧ c = b ∨ q ≠ p ∧ c ≠ b ∧ (page q).data = some c := by
    intro q c has
    by_cases same : q = p
    · rw [same, update_self, new] at has
      exact .inl ⟨same, (some.inj has).symm⟩
    rw [update_of_ne same] at has
    refine .inr ⟨same, ?_, has⟩
    intro equal
    rw [equal] at has
    exact elsewhere q has
  have grown : ∀ c, live c = true → update live b true c = true := by
    intro c in_use
    rw [update_apply]
    split
    · rfl
    · exact in_use
  refine ⟨?_, ?_, ?_, ?_, ?_⟩
  · intro q r c first second
    rcases data q c first with ⟨at_q, new_c⟩ | ⟨_, old_c, has_q⟩ <;>
      rcases data r c second with ⟨at_r, new_c'⟩ | ⟨_, old_c', has_r⟩
    · exact at_q.trans at_r.symm
    · exact absurd new_c old_c'
    · exact absurd new_c' old_c
    · exact law.one q r c has_q has_r
  · intro q c has
    rcases data q c has with ⟨_, new_c⟩ | ⟨_, _, has_q⟩
    · rw [new_c, update_self]
    · exact grown c (law.backed q c has_q)
  · intro q c has
    rw [still]
    rcases data q c has with ⟨_, new_c⟩ | ⟨_, _, has_q⟩
    · rw [new_c, quiet]
    · exact law.kept q c has_q
  · intro c
    rw [still]
    exact law.freed c
  · intro c some_free
    rw [still] at some_free
    exact grown c (law.freeing c some_free)

theorem BufferLaw.detach (law : BufferLaw page tasks live)
    (at_i : tasks[i]? = some t) (had : (page p).data = some b) (gone : x.data = none)
    (before : ∀ c, t.pc.frees c = 0) (after : ∀ c, s.pc.frees c = if b = c then 1 else 0) :
    BufferLaw (update page p x) (tasks.set i s) live := by
  have sum : ∀ c, ((tasks.set i s).map fun u => u.pc.frees c).sum =
      (tasks.map fun u => u.pc.frees c).sum + if b = c then 1 else 0 := by
    intro c
    have moved := frees_set at_i s c
    rw [before c, after c] at moved
    exact moved
  have data : ∀ q c, (update page p x q).data = some c → (page q).data = some c ∧ b ≠ c := by
    intro q c has
    by_cases same : q = p
    · rw [same, update_self, gone] at has
      cases has
    rw [update_of_ne same] at has
    refine ⟨has, ?_⟩
    rintro rfl
    exact same (law.one q p b has had)
  have quiet := law.kept p b had
  refine ⟨?_, ?_, ?_, ?_, ?_⟩
  · intro q r c first second
    exact law.one q r c (data q c first).1 (data r c second).1
  · intro q c has
    exact law.backed q c (data q c has).1
  · intro q c has
    rw [sum, if_neg (data q c has).2]
    exact law.kept q c (data q c has).1
  · intro c
    rw [sum]
    split
    · rename_i same
      rw [← same]
      omega
    · exact law.freed c
  · intro c some_free
    rw [sum] at some_free
    split at some_free
    · rename_i same
      rw [← same]
      exact law.backed p b had
    · exact law.freeing c some_free

theorem BufferLaw.free (law : BufferLaw page tasks live) (at_i : tasks[i]? = some t)
    (before : ∀ c, t.pc.frees c = if b = c then 1 else 0) (after : ∀ c, s.pc.frees c = 0) :
    BufferLaw page (tasks.set i s) (update live b false) := by
  have sum : ∀ c, ((tasks.set i s).map fun u => u.pc.frees c).sum + (if b = c then 1 else 0) =
      (tasks.map fun u => u.pc.frees c).sum := by
    intro c
    have moved := frees_set at_i s c
    rw [before c, after c] at moved
    exact moved
  have apart : ∀ q c, (page q).data = some c → c ≠ b := by
    rintro q c has rfl
    have quiet := law.kept q c has
    have mine := sum c
    rw [if_pos rfl] at mine
    omega
  refine ⟨law.one, ?_, ?_, ?_, ?_⟩
  · intro q c has
    rw [update_of_ne (apart q c has)]
    exact law.backed q c has
  · intro q c has
    have quiet := law.kept q c has
    have mine := sum c
    omega
  · intro c
    have bound := law.freed c
    have mine := sum c
    omega
  · intro c some_free
    have bound := law.freed c
    have mine := sum c
    have differ : c ≠ b := by
      rintro rfl
      rw [if_pos rfl] at mine
      omega
    rw [update_of_ne differ]
    exact law.freeing c (by omega)

end Buffers

namespace World

variable {w : World} {i : Nat} {held : List (Key × Nat)} {pc : Pc}

/-! ## Steps that only move the task -/

theorem Law.turn (pc' : Pc) (law : w.Law) (at_i : w.tasks[i]? = some ⟨pc, held⟩)
    (pins : ∀ q, pc'.pins q = pc.pins q) (ok : PcOk w.cache.page pc')
    (cleans : ∀ q, pc.cleans q = true → pc'.cleans q = true ∨ (w.cache.page q).dirty = false)
    (frees : ∀ b, pc'.frees b = pc.frees b) : (w.setTask i ⟨pc', held⟩).Law := by
  refine law.calm (d := w.cache) (s := ⟨pc', held⟩) at_i law.indexed (.refl _) ?_ ok
    (law.held i ⟨pc, held⟩ at_i) cleans (fun q dirty => .inl dirty)
    (law.buffers.same at_i (fun _ => rfl) frees)
  intro q
  simp only [Task.pins, pins q]

variable {p : Nat} {k : Key}

theorem pins_ne_of_cleans (cleans : pc.cleans p = true) : pc.pins p ≠ 0 := by
  cases pc with
  | writeback q stage after =>
    have same : q = p := by
      cases stage with
      | opened | writing => exact of_decide_eq_true cleans
      | written => cases cleans
    rw [Pc.pins, if_pos same]
    exact Nat.one_ne_zero
  | _ => cases cleans

/-- A task that is at work on no page. -/
structure Pc.Free (pc : Pc) : Prop where
  pins : ∀ q, pc.pins q = 0
  cleans : ∀ q, pc.cleans q = false
  frees : ∀ b, pc.frees b = 0

theorem absent_of_slot {q : Prop} (slot : Slot w.cache.page k p)
    (valid : (w.cache.page p).valid = true) : q := by
  rw [slot.invalid] at valid
  cases valid

theorem used_of_slot {q : Prop} (slot : Slot w.cache.page k p)
    (unused : (w.cache.page p).used = false) : q := by
  rw [slot.used] at unused
  cases unused

theorem Law.clean_of_slot (law : w.Law) (slot : Slot w.cache.page k p) :
    (w.cache.page p).dirty = false := by
  by_contra dirty
  exact absent_of_slot slot (law.dirty p (by simpa using dirty)).1

theorem data_update {page : Nat → Page} (same : x.data = (page p).data) (q : Nat) :
    (update page p x q).data = (page q).data := by
  rw [update_apply]
  split
  · rename_i here
    rw [here, same]
  · rfl

theorem free_idle : Pc.Free .idle := ⟨fun _ => rfl, fun _ => rfl, fun _ => rfl⟩

theorem free_missed (k : Key) (size : UInt32) : Pc.Free (.missed k size) :=
  ⟨fun _ => rfl, fun _ => rfl, fun _ => rfl⟩

theorem free_flush (dev : UInt32) (j : Nat) (sweep : Bool) : Pc.Free (.flush dev j sweep) :=
  ⟨fun _ => rfl, fun _ => rfl, fun _ => rfl⟩

theorem free_sweep (dev : UInt32) (j : Nat) : Pc.Free (.sweep dev j) :=
  ⟨fun _ => rfl, fun _ => rfl, fun _ => rfl⟩

variable {pc' : Pc}

theorem Law.turn_free (law : w.Law) (at_i : w.tasks[i]? = some ⟨pc, held⟩) (before : Pc.Free pc)
    (after : Pc.Free pc') (ok : PcOk w.cache.page pc') : (w.setTask i ⟨pc', held⟩).Law := by
  apply law.turn pc' at_i _ ok
  · intro q clean
    rw [before.cleans q] at clean
    cases clean
  · intro b
    rw [before.frees, after.frees]
  · intro q
    rw [before.pins, after.pins]

/-! ## A pin more or less -/

theorem Law.pinned {d : Cache} (law : w.Law) (at_i : w.tasks[i]? = some ⟨pc, held⟩)
    (there : w.cache.On p) (indexed : d.Indexed) (page : d.page = update w.cache.page p x)
    (alike : Alike w.cache.page d.page) (pin : x.pin = (w.cache.page p).pin + 1)
    (pins : ∀ q, pc'.pins q = pc.pins q + if p = q then 1 else 0) (ok : PcOk w.cache.page pc')
    (cleans : ∀ q, pc.cleans q = false)
    (dirty : x.dirty = true → (w.cache.page p).dirty = true ∨ pc'.cleans p = true)
    (frees : ∀ b, pc'.frees b = pc.frees b) : ((w.setCache d).setTask i ⟨pc', held⟩).Law := by
  have here : ∀ q, d.page q = if q = p then x else w.cache.page q := by
    intro q
    rw [page, update_apply]
  refine law.calm (s := ⟨pc', held⟩) at_i indexed alike ?_ ok
    (law.held i ⟨pc, held⟩ at_i) ?_ ?_ (law.buffers.same at_i alike.data frees)
  · intro q
    simp only [Task.pins, pins q, here q]
    by_cases same : p = q
    · subst same
      simp only [if_pos, pin]
      omega
    · simp only [if_neg same, if_neg (Ne.symm same)]
      omega
  · intro q clean
    rw [cleans q] at clean
    cases clean
  · intro q is_dirty
    rw [here q] at is_dirty
    by_cases same : q = p
    · subst same
      rw [if_pos rfl] at is_dirty
      exact (dirty is_dirty).imp_right fun clean => ⟨clean, there⟩
    · rw [if_neg same] at is_dirty
      exact .inl is_dirty

theorem Law.touched (law : w.Law) (at_i : w.tasks[i]? = some ⟨pc, held⟩) (there : w.cache.On p)
    (pins : ∀ q, pc'.pins q = pc.pins q + if p = q then 1 else 0) (ok : PcOk w.cache.page pc')
    (cleans : ∀ q, pc.cleans q = false) (frees : ∀ b, pc'.frees b = pc.frees b) :
    ((w.setCache ((w.cache.pin p).lruTouch p)).setTask i ⟨pc', held⟩).Law := by
  have pinned : (w.cache.pin p).Indexed := law.indexed.setPage rfl fun _ => rfl
  have still : (w.cache.pin p).On p := by
    rw [Cache.On, Cache.pin, Cache.page_setPage, if_pos rfl]
    exact there
  have page : ((w.cache.pin p).lruTouch p).page = update w.cache.page p
      { w.cache.page p with pin := (w.cache.page p).pin + 1 } :=
    (Cache.lruTouch_same (w.cache.pin p) p).page
  refine law.pinned at_i there (pinned.lruTouch still) page ?_ rfl pins ok cleans .inl frees
  rw [page]
  exact Alike.update there there rfl rfl rfl

theorem get_law (law : w.Law) (at_i : w.tasks[i]? = some ⟨.idle, held⟩) (k : Key)
    (size : UInt32) : ∃ w', w.get i ⟨.idle, held⟩ k size = some w' ∧ w'.Law := by
  rw [get]
  rcases law.indexed.hashFind k with ⟨missing, _⟩ | ⟨p, found, there, key⟩
  · rw [missing]
    exact ⟨_, rfl, law.turn_free at_i free_idle (free_missed k size) trivial⟩
  rw [found]
  refine ⟨_, rfl, law.touched at_i there ?_ ⟨there, key⟩ (fun _ => rfl) fun _ => rfl⟩
  intro q
  exact (zero_add _).symm

theorem markDirty_law (law : w.Law) (at_i : w.tasks[i]? = some ⟨.idle, held⟩) (k : Key) :
    ∃ w', w.markDirty i ⟨.idle, held⟩ k = some w' ∧ w'.Law := by
  rw [markDirty]
  rcases law.indexed.hashFind k with ⟨missing, _⟩ | ⟨p, found, there, key⟩
  · rw [missing]
    exact ⟨_, rfl, law⟩
  rw [found]
  have page : ((w.cache.setPage p { w.cache.page p with dirty := true }).pin p).page =
      update w.cache.page p
        { w.cache.page p with dirty := true, pin := (w.cache.page p).pin + 1 } := by
    simp [Cache.pin, Cache.setPage]
  have marked : (w.cache.setPage p { w.cache.page p with dirty := true }).Indexed :=
    law.indexed.setPage rfl fun _ => rfl
  have indexed : ((w.cache.setPage p { w.cache.page p with dirty := true }).pin p).Indexed :=
    marked.setPage rfl fun _ => rfl
  refine ⟨_, rfl, law.pinned at_i there indexed page ?_ rfl ?_ ?_ (fun _ => rfl) ?_ fun _ => rfl⟩
  · rw [page]
    exact Alike.update there there rfl rfl rfl
  · intro q
    exact (zero_add _).symm
  · exact ⟨there, by simp⟩
  · intro _
    exact .inr (decide_eq_true rfl)

theorem next_some {j : Nat} {wanted : Nat → Bool} {n : Nat} (found : next j wanted = some n) :
    wanted n = true := by
  have both := find?_some found
  rw [and_eq_true] at both
  exact both.2

theorem flush_law (law : w.Law) (at_i : w.tasks[i]? = some ⟨pc, held⟩) (before : Pc.Free pc)
    (dev : UInt32) (j : Nat) (sweep : Bool) : (w.flush i ⟨pc, held⟩ dev j sweep).Law := by
  rw [flush]
  split
  · rename_i n found
    have wanted := next_some found
    simp only [and_eq_true] at wanted
    have there : w.cache.On n := wanted.1.1
    have pinned : (w.cache.pin n).Indexed := law.indexed.setPage rfl fun _ => rfl
    refine law.pinned at_i there pinned rfl ?_ rfl ?_ ?_ before.cleans .inl ?_
    · exact Alike.update there there rfl rfl rfl
    · intro q
      rw [before.pins, zero_add]
      rfl
    · exact ⟨there, nofun⟩
    · intro b
      rw [before.frees]
      rfl
  · apply law.turn_free at_i before
    · split
      · exact free_sweep dev 0
      · exact free_idle
    · split <;> trivial

/-! ## The write-back -/

theorem Law.unpinned {s t : Task} (law : w.Law) (at_i : w.tasks[i]? = some t) (there : w.cache.On p)
    (ok : PcOk w.cache.page s.pc) (held : HeldOk w.cache.page s.held)
    (pins : ∀ q, Task.pins w.cache.page q t = Task.pins w.cache.page q s + if p = q then 1 else 0)
    (cleans : ∀ q, t.pc.cleans q = false) (frees : ∀ b, s.pc.frees b = t.pc.frees b) :
    ((w.setCache (w.cache.unpin p)).setTask i s).Law := by
  have indexed : (w.cache.unpin p).Indexed := law.indexed.setPage rfl fun _ => rfl
  have counted : 0 < (w.cache.page p).pin := by
    have bound := le_sum (Task.pins w.cache.page p) at_i
    rw [← law.pins p, pins p, if_pos rfl] at bound
    omega
  have alike : Alike w.cache.page (w.cache.unpin p).page := Alike.update there there rfl rfl rfl
  refine law.calm at_i indexed alike ?_ ok held ?_ ?_ (law.buffers.same at_i alike.data frees)
  · intro q
    rw [pins q, Cache.unpin, Cache.page_setPage]
    by_cases same : q = p
    · subst same
      rw [if_pos rfl, if_pos rfl]
      dsimp only
      omega
    · rw [if_neg same, if_neg (Ne.symm same)]
      omega
  · intro q clean
    rw [cleans q] at clean
    cases clean
  · intro q is_dirty
    rw [Cache.unpin, Cache.page_setPage] at is_dirty
    left
    by_cases same : q = p
    · subst same
      rwa [if_pos rfl] at is_dirty
    · rwa [if_neg same] at is_dirty

variable {after : After} {l : List (Key × Nat)} {live : Nat → Bool} {data : Option Nat}
  {rest : Option (UInt32 × Nat)}

theorem Law.cleaned (law : w.Law) (at_i : w.tasks[i]? = some ⟨.writeback p .writing after, held⟩) :
    ((w.setCache (w.cache.writeback p)).setTask i ⟨.writeback p .written after, held⟩).Law := by
  obtain ⟨there, not_remove⟩ : w.cache.On p ∧ after ≠ .remove := law.pcs i _ at_i
  rw [Cache.writeback]
  by_cases dirty : (w.cache.page p).dirty = true
  · rw [if_pos dirty]
    have indexed : (w.cache.setPage p { w.cache.page p with dirty := false }).Indexed :=
      law.indexed.setPage rfl fun _ => rfl
    have alike := Alike.update (x := { w.cache.page p with dirty := false }) there there rfl rfl rfl
    refine law.calm (s := ⟨.writeback p .written after, held⟩) at_i indexed alike ?_
      ⟨there, not_remove⟩ (law.held i ⟨.writeback p .writing after, held⟩ at_i) ?_ ?_
      (law.buffers.same at_i alike.data fun _ => rfl)
    · intro q
      rw [Cache.page_setPage]
      split
      · rename_i same
        rw [same]
        rfl
      · rfl
    · intro q clean
      right
      have same : p = q := of_decide_eq_true clean
      rw [Cache.page_setPage, if_pos same.symm]
    · intro q is_dirty
      left
      rw [Cache.page_setPage] at is_dirty
      split at is_dirty
      · cases is_dirty
      · exact is_dirty
  · rw [if_neg dirty]
    apply law.turn (.writeback p .written after) at_i (fun _ => rfl) ⟨there, not_remove⟩
    · intro q clean
      right
      have same : p = q := of_decide_eq_true clean
      rw [← same]
      exact eq_false_iff.mpr dirty
    · intro b
      rfl

theorem writeback_law {stage : Stage} (law : w.Law)
    (at_i : w.tasks[i]? = some ⟨.writeback p stage after, held⟩) :
    ∃ w', w.writeback i ⟨.writeback p stage after, held⟩ p after stage = some w' ∧ w'.Law := by
  obtain ⟨there, not_remove⟩ : w.cache.On p ∧ after ≠ .remove := law.pcs i _ at_i
  have kept : HeldOk w.cache.page held := law.held i _ at_i
  cases stage with
  | opened =>
    refine ⟨_, rfl, ?_⟩
    apply law.turn (.writeback p (if (w.cache.page p).dirty then .writing else .written) after)
      at_i (fun _ => rfl) ⟨there, not_remove⟩
    · intro q clean
      by_cases dirty : (w.cache.page p).dirty = true
      · rw [if_pos dirty]
        exact .inl clean
      right
      have same : p = q := of_decide_eq_true clean
      rw [← same]
      exact eq_false_iff.mpr dirty
    · intro b
      rfl
  | writing => exact ⟨_, rfl, law.cleaned at_i⟩
  | written =>
    have released : ∀ {pc'}, Pc.Free pc' → PcOk w.cache.page pc' →
        ((w.setCache (w.cache.unpin p)).setTask i ⟨pc', held⟩).Law := by
      intro pc' free ok
      refine law.unpinned at_i there ok kept ?_ (fun _ => rfl) free.frees
      intro q
      rw [Task.pins, Task.pins, free.pins, Pc.pins]
      dsimp only
      omega
    cases after with
    | done => exact ⟨_, rfl, released free_idle trivial⟩
    | flush dev j sweep => exact ⟨_, rfl, released (free_flush dev j sweep) trivial⟩
    | remove => exact absurd rfl not_remove

/-! ## Holding and putting back -/

theorem countP_put (holds : l.any (fun x => x.1 = k) = true) (k' : Key) :
    l.countP (fun x => x.1 = k') =
      (l.eraseP fun x => x.1 = k).countP (fun x => x.1 = k') + if k = k' then 1 else 0 := by
  obtain ⟨x, member, key⟩ := any_eq_true.mp holds
  obtain ⟨y, front, back, _, key_y, split, erased⟩ :=
    exists_of_eraseP (p := fun x => x.1 = k) member key
  have same : y.1 = k := of_decide_eq_true key_y
  rw [erased, split]
  simp only [countP_append, countP_cons, same, decide_eq_true_eq]
  omega

theorem Law.pins_held {m : List (Key × Nat)} (law : w.Law) (there : w.cache.On p)
    (key : (w.cache.page p).key = k)
    (count : ∀ k',
      l.countP (fun x => x.1 = k') = m.countP (fun x => x.1 = k') + if k = k' then 1 else 0)
    (q : Nat) :
    Task.pins w.cache.page q ⟨.idle, l⟩ =
      Task.pins w.cache.page q ⟨.idle, m⟩ + if p = q then 1 else 0 := by
  simp only [Task.pins, count, Pc.pins]
  by_cases on : (w.cache.page q).valid = true
  · have same : k = (w.cache.page q).key ↔ p = q := by
      constructor
      · intro equal
        exact law.indexed.keys p q there on (key.trans equal)
      · rintro rfl
        exact key.symm
    simp only [if_pos on, same]
    omega
  · have differ : p ≠ q := by
      rintro rfl
      exact on there
    simp only [if_neg on, if_neg differ]

theorem put_law (law : w.Law) (at_i : w.tasks[i]? = some ⟨.idle, held⟩) {w' : World}
    (run : w.put i ⟨.idle, held⟩ k = some w') : w'.Law := by
  rw [put] at run
  split at run
  · rename_i holds
    have kept : HeldOk w.cache.page held := law.held i _ at_i
    obtain ⟨x, member, key⟩ := any_eq_true.mp holds
    obtain ⟨q, valid, key_q, _⟩ := kept x member
    have key_k : (w.cache.page q).key = k := key_q.trans (of_decide_eq_true key)
    rcases law.indexed.hashFind k with ⟨_, missing⟩ | ⟨p, found, there, key_p⟩
    · exact absurd key_k (missing q valid)
    dsimp only [setTask] at run
    rw [found, map_some] at run
    have pins := law.pins_held there key_p (countP_put holds)
    have counted : (w.cache.page p).pin ≠ 0 := by
      intro zero
      have none := law.alone_of_unpinned zero i _ at_i
      rw [pins p, if_pos rfl] at none
      omega
    have step : w' = (w.setCache (w.cache.unpin p)).setTask i
        ⟨.idle, held.eraseP fun x => x.1 = k⟩ := by
      have result := some.inj run
      dsimp only at result
      rw [if_neg counted] at result
      exact result.symm
    rw [step]
    refine law.unpinned at_i there trivial ?_ pins (fun _ => rfl) fun _ => rfl
    intro x member
    exact kept x (mem_of_mem_eraseP member)
  · cases run

theorem found_law (law : w.Law) (at_i : w.tasks[i]? = some ⟨.found k p, held⟩) :
    ∃ b, (w.cache.page p).data = some b ∧ (w.setTask i ⟨.idle, held ++ [(k, b)]⟩).Law := by
  obtain ⟨there, key⟩ : w.cache.On p ∧ (w.cache.page p).key = k := law.pcs i _ at_i
  have kept : HeldOk w.cache.page held := law.held i _ at_i
  obtain ⟨b, data⟩ := ne_none_iff_exists'.mp (law.data p there)
  refine ⟨b, data, ?_⟩
  refine law.calm (d := w.cache) (s := ⟨.idle, held ++ [(k, b)]⟩) at_i law.indexed (.refl _) ?_
    trivial ?_ nofun (fun q dirty => .inl dirty)
    (law.buffers.same at_i (fun _ => rfl) fun _ => rfl)
  · intro q
    have more := law.pins_held there key (l := held ++ [(k, b)]) (m := held) (by simp) q
    simp only [Task.pins, Pc.pins] at more ⊢
    omega
  · intro x member
    rcases mem_append.mp member with before | last
    · exact kept x before
    · rw [mem_singleton.mp last]
      exact ⟨p, there, key, data⟩

/-! ## Pages that belong to one task -/

theorem Law.own_invalid {d : Cache} (law : w.Law) (at_i : w.tasks[i]? = some ⟨pc, held⟩)
    (indexed : d.Indexed) (page : d.page = update w.cache.page p x) (alone : w.Alone i p)
    (away : (w.cache.page p).valid = true → ∀ y ∈ held, y.1 ≠ (w.cache.page p).key)
    (invalid : x.valid = false) (pins : x.pin + pc.pins p = (w.cache.page p).pin + pc'.pins p)
    (others : ∀ q, q ≠ p → pc'.pins q = pc.pins q) (ok : PcOk d.page pc')
    (unused : x.used = false → x.pin = 0) (clean : x.dirty = false)
    (idle : ∀ q, pc.cleans q = false)
    (buffers : BufferLaw d.page (w.tasks.set i ⟨pc', held⟩) live) :
    ({ w with live := live }.setCache d |>.setTask i ⟨pc', held⟩).Law := by
  have absent : ∀ {q : Prop}, x.valid = true → q := by
    intro q valid
    rw [invalid] at valid
    cases valid
  have none_held : (if (w.cache.page p).valid = true then
      held.countP (fun y => y.1 = (w.cache.page p).key) else 0) = 0 := by
    split
    · rename_i valid
      rw [countP_eq_zero]
      intro y member same
      exact away valid y member (of_decide_eq_true same)
    · rfl
  refine law.own at_i indexed page alone absent ?_ ?_ ok ?_ absent unused absent clean idle buffers
  · rw [Task.pins, Task.pins, none_held, page, update_self, invalid]
    exact pins
  · intro q differ
    simp only [Task.pins, others q differ]
  · rw [page]
    exact heldOk_update (t := ⟨pc, held⟩) (law.held i _ at_i) away

theorem Law.taken {c : Cache} (k : Key) (size : UInt32) (law : w.Law)
    (at_i : w.tasks[i]? = some ⟨.missed k size, held⟩) (inside : p < pcMaxPages)
    (unpinned : (w.cache.page p).pin = 0) (indexed : c.Indexed)
    (others : ∀ q, q ≠ p → c.page q = w.cache.page q) (invalid : (c.page p).valid = false)
    (data : (c.page p).data = (w.cache.page p).data) :
    ((w.setCache (c.setPage p { c.page p with
      key := k, blockSize := size, valid := false, dirty := false, used := true,
      pin := 1 })).setTask i
        ⟨.slot k p, held⟩).Law := by
  have page : ∀ x, (c.setPage p x).page = update w.cache.page p x := by
    intro x
    funext q
    rw [Cache.page_setPage, update_apply]
    split
    · rfl
    · rename_i differ
      exact others q differ
  have alone := law.alone_of_unpinned unpinned
  have mine := away_of_pins (alone i _ at_i)
  refine law.own_invalid at_i (indexed.setPage invalid.symm nofun) (page _)
    (fun j u at_j _ => alone j u at_j) mine.2 rfl ?_ ?_ ?_ nofun rfl (fun _ => rfl) ?_
  · rw [unpinned]
    change 1 + 0 = 0 + if p = p then 1 else 0
    rw [if_pos rfl]
  · intro q differ
    exact if_neg (Ne.symm differ)
  · rw [page]
    refine ⟨inside, ?_, ?_, ?_, ?_⟩ <;> rw [update_self]
  · rw [page]
    exact law.buffers.same at_i (data_update data) fun _ => rfl

theorem take_law {size : UInt32} (law : w.Law) (at_i : w.tasks[i]? = some ⟨.missed k size, held⟩) :
    ∃ w', w.take i ⟨.missed k size, held⟩ k size = some w' ∧ w'.Law := by
  rw [take]
  rcases law.indexed.allocPage with none | ⟨p, run, inside, unused⟩ |
    ⟨p, d, run, there, unpinned, indexed, page⟩
  · rw [none]
    exact ⟨_, rfl, law.turn_free at_i (free_missed k size) free_idle trivial⟩
  · rw [run]
    have invalid : (w.cache.page p).valid = false := by
      by_contra valid
      rw [law.used p (by simpa using valid)] at unused
      cases unused
    exact ⟨_, rfl, law.taken k size at_i inside (law.unused p unused) law.indexed (fun _ _ => rfl)
      invalid rfl⟩
  · rw [run]
    have inside := law.indexed.inPool p there
    refine ⟨_, rfl, law.taken k size at_i inside unpinned indexed ?_ ?_ ?_⟩
    · intro q differ
      rw [page, update_of_ne differ]
    · rw [page, update_self]
      rfl
    · rw [page, update_self]
      rfl

theorem fill_law {buffer : Option Nat} {w' : World} (law : w.Law)
    (at_i : w.tasks[i]? = some ⟨.slot k p, held⟩)
    (run : w.fill i ⟨.slot k p, held⟩ k p buffer = some w') : w'.Law := by
  have slot : Slot w.cache.page k p := law.pcs i _ at_i
  rw [fill.eq_def] at run
  split at run
  · rename_i b data
    cases run
    apply law.turn (.filled k p) at_i (fun _ => rfl) _ nofun fun _ => rfl
    refine ⟨slot, ?_⟩
    rw [data]
    exact some_ne_none b
  · cases run
    exact law.turn (.noMemory p) at_i (fun _ => rfl) ⟨k, slot⟩ nofun fun _ => rfl
  rename_i b data
  split at run
  · cases run
  rename_i unused
  cases run
  have indexed : (w.cache.setPage p { w.cache.page p with data := some b }).Indexed :=
    law.indexed.setPage rfl fun _ => rfl
  refine law.own_invalid at_i indexed rfl
    (law.alone_of_slot at_i slot.pin (by simp [Pc.pins])) (absent_of_slot slot) slot.invalid
    rfl (fun _ _ => rfl) ?_ (used_of_slot slot) (law.clean_of_slot slot) (fun _ => rfl) ?_
  · refine ⟨⟨slot.inside, ?_, ?_, ?_, ?_⟩, ?_⟩ <;> rw [Cache.page_setPage, if_pos rfl]
    · exact slot.used
    · exact slot.invalid
    · exact slot.key
    · exact slot.pin
    · exact some_ne_none b
  · exact law.buffers.fill at_i (fun _ => rfl) rfl (by simpa using unused)

theorem Law.cleared (pc' : Pc) (law : w.Law) (at_i : w.tasks[i]? = some ⟨pc, held⟩)
    (slot : Slot w.cache.page k p) (pins : ∀ q, pc.pins q = (if p = q then 1 else 0) + pc'.pins q)
    (ok : PcOk (w.cache.clear p).page pc') (cleans : ∀ q, pc.cleans q = false)
    (frees : ∀ b, pc'.frees b = pc.frees b) :
    ((w.setCache (w.cache.clear p)).setTask i ⟨pc', held⟩).Law := by
  have here := pins p
  rw [if_pos rfl] at here
  have mine : 0 < pc.pins p := by omega
  refine law.own_invalid at_i (law.indexed.setPage slot.invalid.symm nofun) rfl
    (law.alone_of_slot at_i slot.pin mine) (absent_of_slot slot) rfl ?_ ?_ ok (fun _ => rfl) rfl
    cleans (law.buffers.same at_i (data_update rfl) frees)
  · rw [slot.pin, here]
    exact zero_add _
  · intro q differ
    rw [pins q, if_neg (Ne.symm differ), zero_add]

theorem publish_law (law : w.Law) (at_i : w.tasks[i]? = some ⟨.filled k p, held⟩) :
    ∃ w', w.publish i ⟨.filled k p, held⟩ k p = some w' ∧ w'.Law := by
  obtain ⟨slot, data⟩ : Slot w.cache.page k p ∧ (w.cache.page p).data ≠ none := law.pcs i _ at_i
  have kept : HeldOk w.cache.page held := law.held i _ at_i
  rw [publish]
  rcases law.indexed.hashFind k with ⟨missing, fresh⟩ | ⟨e, found, there, key⟩
  · rw [missing]
    obtain ⟨indexed, page⟩ := law.indexed.insert (x := { w.cache.page p with valid := true })
      (absent_of_slot slot) slot.inside (fun q on => slot.key ▸ fresh q on) rfl rfl
    have none_holds : ∀ (j : Nat) (u : Task), w.tasks[j]? = some u → ∀ y ∈ u.held,
        y.1 ≠ (w.cache.page p).key := by
      intro j u at_j y member same
      obtain ⟨q, valid, key, _⟩ := law.held j u at_j y member
      rw [slot.key] at same
      exact fresh q valid (key.trans same)
    refine ⟨_, rfl, law.own (s := ⟨.found k p, held⟩) at_i indexed page
      (law.alone_of_slot at_i slot.pin (by simp [Pc.pins])) (fun _ => none_holds) ?_
      (fun _ _ => rfl) ?_ ?_ (fun _ => slot.used) (used_of_slot slot) (fun _ => data)
      (law.clean_of_slot slot) (fun _ => rfl) ?_⟩
    · have zero : held.countP (fun y => y.1 = (w.cache.page p).key) = 0 := by
        rw [countP_eq_zero]
        intro y member same
        exact none_holds i _ at_i y member (of_decide_eq_true same)
      rw [Task.pins, Task.pins, page, update_self, slot.invalid]
      rw [zero]
      rfl
    · rw [page]
      refine ⟨?_, ?_⟩ <;> rw [update_self]
      exact slot.key
    · rw [page]
      exact heldOk_update (t := ⟨.filled k p, held⟩) kept (absent_of_slot slot)
    · rw [page]
      exact law.buffers.same at_i (data_update rfl) fun _ => rfl
  · rw [found]
    refine ⟨_, rfl, law.touched at_i there (fun _ => rfl) ⟨slot, there, key⟩ (fun _ => rfl)
      fun _ => rfl⟩

theorem beaten_law {e : Nat} (law : w.Law) (at_i : w.tasks[i]? = some ⟨.beaten k p e, held⟩) :
    ((w.setCache (w.cache.clear p)).setTask i ⟨.found k e, held⟩).Law := by
  obtain ⟨slot, there, key⟩ : Slot w.cache.page k p ∧ w.cache.On e ∧ (w.cache.page e).key = k :=
    law.pcs i _ at_i
  apply law.cleared (.found k e) at_i slot (fun _ => rfl) _ (fun _ => rfl) fun _ => rfl
  have differ : e ≠ p := by
    rintro rfl
    exact absent_of_slot slot there
  refine ⟨?_, ?_⟩ <;> rw [Cache.clear, Cache.page_setPage, if_neg differ]
  · exact there
  · exact key

/-! ## Removal -/

theorem Law.detached (rest : Option (UInt32 × Nat)) (law : w.Law)
    (at_i : w.tasks[i]? = some ⟨pc, held⟩) (before : Pc.Free pc) (there : w.cache.On p)
    (unpinned : (w.cache.page p).pin = 0) :
    ∃ r, w.cache.detach p = some r ∧
      ((w.setCache r.2).setTask i ⟨.freeing r.1 rest, held⟩).Law := by
  obtain ⟨d, run, indexed, page⟩ := law.indexed.detach there
  obtain ⟨b, data⟩ := ne_none_iff_exists'.mp (law.data p there)
  have alone := law.alone_of_unpinned unpinned
  refine ⟨_, run, ?_⟩
  refine law.own_invalid at_i indexed page (fun j u at_j _ => alone j u at_j)
    (away_of_pins (alone i _ at_i)).2 rfl ?_ ?_ trivial (fun _ => rfl) rfl before.cleans ?_
  · rw [before.pins, unpinned]
    rfl
  · intro q _
    rw [before.pins]
    rfl
  · rw [page]
    apply law.buffers.detach at_i data rfl before.frees
    intro c
    rw [data]
    rfl

theorem sweep_law {dev : UInt32} {j : Nat} (law : w.Law)
    (at_i : w.tasks[i]? = some ⟨.sweep dev j, held⟩) :
    ∃ w', w.sweep i ⟨.sweep dev j, held⟩ dev j = some w' ∧ w'.Law := by
  rw [sweep]
  split
  · rename_i n found
    have wanted := next_some found
    simp only [and_eq_true, decide_eq_true_eq] at wanted
    obtain ⟨r, run, after⟩ := law.detached (some (dev, n + 1)) at_i (free_sweep dev j) wanted.1.1
      wanted.2
    rw [run]
    exact ⟨_, rfl, after⟩
  · exact ⟨_, rfl, law.turn_free at_i (free_sweep dev j) free_idle trivial⟩

theorem invalidateBlock_law (law : w.Law) (at_i : w.tasks[i]? = some ⟨.idle, held⟩) (k : Key) :
    ∃ w', w.invalidateBlock i ⟨.idle, held⟩ k = some w' ∧ w'.Law := by
  rw [invalidateBlock]
  rcases law.indexed.hashFind k with ⟨missing, _⟩ | ⟨p, found, there, key⟩
  · rw [missing]
    exact ⟨_, rfl, law⟩
  rw [found, bind_some]
  by_cases pinned : 0 < (w.cache.page p).pin
  · dsimp only
    rw [if_pos pinned]
    exact ⟨_, rfl, law⟩
  have unpinned : (w.cache.page p).pin = 0 := by omega
  -- a dirty page is pinned by the task that writes it back
  have clean : ¬ (w.cache.page p).dirty = true := by
    intro dirty
    obtain ⟨_, j, u, at_j, cleans⟩ := law.dirty p dirty
    have none := (away_of_pins (law.alone_of_unpinned unpinned j u at_j)).1
    exact absurd none (pins_ne_of_cleans cleans)
  obtain ⟨r, run, after⟩ := law.detached none at_i free_idle there unpinned
  dsimp only
  rw [if_neg pinned, if_neg clean, run]
  exact ⟨_, rfl, after⟩

theorem Law.freed (law : w.Law) (at_i : w.tasks[i]? = some ⟨.freeing data rest, held⟩)
    (after : Pc.Free pc') (ok : PcOk w.cache.page pc')
    (buffers : ∀ pc', Pc.Free pc' → BufferLaw w.cache.page (w.tasks.set i ⟨pc', held⟩) live) :
    ({ w with live := live }.setTask i ⟨pc', held⟩).Law := by
  have kept : HeldOk w.cache.page held := law.held i _ at_i
  refine law.calm (d := w.cache) (s := ⟨pc', held⟩) at_i law.indexed (.refl _) ?_ ok kept nofun
    (fun q dirty => .inl dirty) (buffers pc' after)
  intro q
  simp only [Task.pins, after.pins q]
  rfl

theorem free_law (law : w.Law) (at_i : w.tasks[i]? = some ⟨.freeing data rest, held⟩) :
    (w.free i ⟨.freeing data rest, held⟩ data rest).Law := by
  have next : ∀ {live}, (∀ pc', Pc.Free pc' →
      BufferLaw w.cache.page (w.tasks.set i ⟨pc', held⟩) live) →
      (w.free i ⟨.freeing data rest, held⟩ data rest).live = live →
      (w.free i ⟨.freeing data rest, held⟩ data rest).Law := by
    rintro live buffers rfl
    cases rest with
    | none => exact law.freed at_i free_idle trivial buffers
    | some more => exact law.freed at_i (free_sweep more.1 more.2) trivial buffers
  cases data with
  | none =>
    exact next (fun pc' after => law.buffers.same at_i (fun _ => rfl) after.frees) rfl
  | some b => exact next (fun pc' after => law.buffers.free at_i (fun _ => rfl) after.frees) rfl

end World

end CactKernel.PageCache
