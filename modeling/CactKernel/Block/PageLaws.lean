import CactKernel.Block.PageIndex
import CactKernel.Lib.Tally

/-! # Who has which page

The pin count of a page is the number of tasks that are at work on it or hold it. A page
that is read in belongs to the task that reads it; every other page that a task is at
work on is in the cache. A dirty page is being written back, so that it is pinned. -/

set_option autoImplicit false

namespace CactKernel.PageCache

open Lib List Function

/-- The times a task is at work on the page. -/
def Pc.pins (p : Nat) : Pc → Nat
  | .slot _ q | .noMemory q | .filled _ q | .found _ q | .writeback q _ _ => if q = p then 1 else 0
  | .beaten _ q e => (if q = p then 1 else 0) + (if e = p then 1 else 0)
  | _ => 0

/-- The task is going to clear the dirty flag. -/
def Pc.cleans (p : Nat) : Pc → Bool
  | .writeback q .opened _ | .writeback q .writing _ => q = p
  | _ => false

/-- The task is going to free the buffer. -/
def Pc.frees (b : Nat) : Pc → Nat
  | .freeing (some b') _ => if b' = b then 1 else 0
  | _ => 0

/-- A held block counts for the page that has its key. -/
def Task.pins (page : Nat → Page) (p : Nat) (t : Task) : Nat :=
  t.pc.pins p + if (page p).valid then t.held.countP (fun x => x.1 = (page p).key) else 0

/-- A page that a task is filling. -/
structure Slot (page : Nat → Page) (k : Key) (p : Nat) : Prop where
  inside : p < pcMaxPages
  used : (page p).used = true
  invalid : (page p).valid = false
  key : (page p).key = k
  pin : (page p).pin = 1

def PcOk (page : Nat → Page) : Pc → Prop
  | .slot k p => Slot page k p
  | .noMemory p => ∃ k, Slot page k p
  | .filled k p => Slot page k p ∧ (page p).data ≠ none
  | .beaten k p e => Slot page k p ∧ (page e).valid = true ∧ (page e).key = k
  | .found k p => (page p).valid = true ∧ (page p).key = k
  | .writeback p _ after => (page p).valid = true ∧ after ≠ .remove
  | _ => True

/-- Every held buffer is that of the page of its block. -/
def HeldOk (page : Nat → Page) (held : List (Key × Nat)) : Prop :=
  ∀ x ∈ held, ∃ p, (page p).valid = true ∧ (page p).key = x.1 ∧ (page p).data = some x.2

/-- A buffer belongs to one page, or is about to be freed by one task. -/
structure BufferLaw (page : Nat → Page) (tasks : List Task) (live : Nat → Bool) : Prop where
  one : ∀ p q b, (page p).data = some b → (page q).data = some b → p = q
  backed : ∀ p b, (page p).data = some b → live b = true
  kept : ∀ p b, (page p).data = some b → (tasks.map fun t => t.pc.frees b).sum = 0
  freed : ∀ b, (tasks.map fun t => t.pc.frees b).sum ≤ 1
  freeing : ∀ b, 0 < (tasks.map fun t => t.pc.frees b).sum → live b = true

structure World.Law (w : World) : Prop where
  indexed : w.cache.Indexed
  pins : ∀ p, (w.cache.page p).pin = (w.tasks.map (Task.pins w.cache.page p)).sum
  pcs : ∀ (i : Nat) (t : Task), w.tasks[i]? = some t → PcOk w.cache.page t.pc
  held : ∀ (i : Nat) (t : Task), w.tasks[i]? = some t → HeldOk w.cache.page t.held
  used : ∀ p, (w.cache.page p).valid = true → (w.cache.page p).used = true
  unused : ∀ p, (w.cache.page p).used = false → (w.cache.page p).pin = 0
  data : ∀ p, (w.cache.page p).valid = true → (w.cache.page p).data ≠ none
  dirty : ∀ p, (w.cache.page p).dirty = true → (w.cache.page p).valid = true ∧
    ∃ (i : Nat) (t : Task), w.tasks[i]? = some t ∧ t.pc.cleans p = true
  buffers : BufferLaw w.cache.page w.tasks w.live

/-! ## References -/

section References

variable {page page' : Nat → Page} {p : Nat} {t : Task}

/-- Nothing but the pin count and the dirty flag of valid pages is changed. -/
structure Alike (page page' : Nat → Page) : Prop where
  valid : ∀ q, (page' q).valid = (page q).valid
  used : ∀ q, (page' q).used = (page q).used
  key : ∀ q, (page' q).key = (page q).key
  data : ∀ q, (page' q).data = (page q).data
  invalid : ∀ q, (page q).valid = false → page' q = page q

theorem Alike.refl (page : Nat → Page) : Alike page page :=
  ⟨fun _ => rfl, fun _ => rfl, fun _ => rfl, fun _ => rfl, fun _ _ => rfl⟩

variable {x : Page} {pc : Pc}

theorem Alike.update (there : (page p).valid = true) (valid : x.valid = true)
    (used : x.used = (page p).used) (key : x.key = (page p).key) (data : x.data = (page p).data) :
    Alike page (Function.update page p x) := by
  have field : ∀ {β : Type} (f : Page → β), f x = f (page p) →
      ∀ q, f (Function.update page p x q) = f (page q) := by
    intro β f same q
    rw [Function.update_apply]
    split
    · rename_i here
      rw [here, same]
    · rfl
  refine ⟨field _ (valid.trans there.symm), field _ used, field _ key, field _ data, ?_⟩
  intro q invalid
  apply Function.update_of_ne
  rintro rfl
  rw [there] at invalid
  cases invalid

theorem Alike.pins (alike : Alike page page') (q : Nat) (t : Task) :
    Task.pins page' q t = Task.pins page q t := by
  rw [Task.pins, Task.pins, alike.valid, alike.key]

theorem Slot.of_eq {k : Key} {q : Nat} (slot : Slot page k q) (same : page' q = page q) :
    Slot page' k q :=
  ⟨slot.inside, by rw [same, slot.used], by rw [same, slot.invalid], by rw [same, slot.key],
    by rw [same, slot.pin]⟩

theorem PcOk.of_pinned (ok : PcOk page pc)
    (same : ∀ q, pc.pins q ≠ 0 → (page' q).valid = (page q).valid ∧ (page' q).key = (page q).key ∧
      (page' q).data = (page q).data ∧ ((page q).valid = false → page' q = page q)) :
    PcOk page' pc := by
  cases pc with
  | slot k q => exact ok.of_eq ((same q (by simp [Pc.pins])).2.2.2 ok.invalid)
  | noMemory q =>
    exact ok.imp fun k slot => slot.of_eq ((same q (by simp [Pc.pins])).2.2.2 slot.invalid)
  | filled k q =>
    obtain ⟨-, -, data, invalid⟩ := same q (by simp [Pc.pins])
    exact ⟨ok.1.of_eq (invalid ok.1.invalid), by rw [data]; exact ok.2⟩
  | beaten k q e =>
    obtain ⟨valid, key, -⟩ := same e (by simp [Pc.pins])
    refine ⟨ok.1.of_eq ((same q (by simp [Pc.pins])).2.2.2 ok.1.invalid), ?_⟩
    rw [valid, key]
    exact ok.2
  | found k q =>
    obtain ⟨valid, key, -⟩ := same q (by simp [Pc.pins])
    exact ⟨valid.trans ok.1, key.trans ok.2⟩
  | writeback q stage after => exact ⟨(same q (by simp [Pc.pins])).1.trans ok.1, ok.2⟩
  | _ => trivial

theorem Alike.pcOk (alike : Alike page page') (ok : PcOk page pc) : PcOk page' pc :=
  ok.of_pinned fun q _ => ⟨alike.valid q, alike.key q, alike.data q, alike.invalid q⟩

theorem Alike.heldOk (alike : Alike page page') {held : List (Key × Nat)}
    (ok : HeldOk page held) : HeldOk page' held := by
  intro x member
  obtain ⟨q, valid, key, data⟩ := ok x member
  exact ⟨q, by rw [alike.valid, valid], by rw [alike.key, key], by rw [alike.data, data]⟩

theorem pcOk_update (ok : PcOk page pc) (away : pc.pins p = 0) :
    PcOk (Function.update page p x) pc := by
  apply ok.of_pinned
  intro q pinned
  have other : q ≠ p := by
    rintro rfl
    exact pinned away
  rw [update_of_ne other]
  exact ⟨rfl, rfl, rfl, fun _ => rfl⟩

theorem heldOk_update (ok : HeldOk page t.held)
    (away : (page p).valid = true → ∀ y ∈ t.held, y.1 ≠ (page p).key) :
    HeldOk (Function.update page p x) t.held := by
  intro y member
  obtain ⟨q, valid, key, data⟩ := ok y member
  have differ : q ≠ p := by
    rintro rfl
    exact away valid y member key.symm
  refine ⟨q, ?_⟩
  rw [update_of_ne differ]
  exact ⟨valid, key, data⟩

theorem away_of_pins (zero : Task.pins page p t = 0) :
    t.pc.pins p = 0 ∧ ((page p).valid = true → ∀ y ∈ t.held, y.1 ≠ (page p).key) := by
  rw [Task.pins, Nat.add_eq_zero_iff] at zero
  refine ⟨zero.1, ?_⟩
  intro valid y member same
  have none := zero.2
  rw [if_pos valid, countP_eq_zero] at none
  exact none y member (decide_eq_true same)

theorem pins_update_zero (pc : t.pc.pins p = 0)
    (fresh : x.valid = true → ∀ y ∈ t.held, y.1 ≠ x.key) :
    Task.pins (Function.update page p x) p t = 0 := by
  rw [Task.pins, update_self, pc, Nat.zero_add]
  split
  · rename_i valid
    rw [countP_eq_zero]
    intro y member same
    exact fresh valid y member (of_decide_eq_true same)
  · rfl

theorem pins_update_ne {q : Nat} (differ : q ≠ p) (t : Task) :
    Task.pins (Function.update page p x) q t = Task.pins page q t := by
  rw [Task.pins, update_of_ne differ, Task.pins]

end References

/-! ## Buffers -/

theorem BufferLaw.same {page page' : Nat → Page} {tasks : List Task} {live : Nat → Bool}
    (law : BufferLaw page tasks live) {i : Nat} {t t' : Task} (at_i : tasks[i]? = some t)
    (data : ∀ q, (page' q).data = (page q).data) (frees : ∀ b, t'.pc.frees b = t.pc.frees b) :
    BufferLaw page' (tasks.set i t') live := by
  have sum : ∀ b, ((tasks.set i t').map fun u => u.pc.frees b).sum =
      (tasks.map fun u => u.pc.frees b).sum := by
    intro b
    have moved := sum_set (fun u : Task => u.pc.frees b) t' at_i
    have same := frees b
    omega
  constructor <;> simp only [data, sum]
  exacts [law.one, law.backed, law.kept, law.freed, law.freeing]

/-! ## One task changes pins and dirty flags -/

namespace World

variable {w : World} {i : Nat} {t : Task}

variable {tasks : List Task} {s : Task} {live : Nat → Bool} {p : Nat}

theorem get_set (at_i : tasks[i]? = some t) (s : Task) (j : Nat) :
    (tasks.set i s)[j]? = if j = i then some s else tasks[j]? := by
  have inside := (List.getElem?_eq_some_iff.mp at_i).1
  by_cases same : j = i
  · rw [if_pos same, same, List.getElem?_set_self inside]
  · rw [if_neg same, List.getElem?_set_ne (Ne.symm same)]

theorem set_cases {u : Task} {j : Nat} (at_j : (tasks.set i s)[j]? = some u) :
    j = i ∧ u = s ∨ j ≠ i ∧ tasks[j]? = some u := by
  by_cases same : j = i
  · subst same
    have inside := (List.getElem?_eq_some_iff.mp at_j).1
    rw [length_set] at inside
    rw [getElem?_set_self inside] at at_j
    exact .inl ⟨rfl, (Option.some.inj at_j).symm⟩
  · rw [getElem?_set_ne (Ne.symm same)] at at_j
    exact .inr ⟨same, at_j⟩

theorem Law.calm {d : Cache} (law : w.Law) (at_i : w.tasks[i]? = some t) (indexed : d.Indexed)
    (alike : Alike w.cache.page d.page)
    (pins : ∀ q, (d.page q).pin + Task.pins w.cache.page q t =
      (w.cache.page q).pin + Task.pins w.cache.page q s)
    (pc : PcOk w.cache.page s.pc) (held : HeldOk w.cache.page s.held)
    (cleans : ∀ q, t.pc.cleans q = true → s.pc.cleans q = true ∨ (d.page q).dirty = false)
    (dirty : ∀ q, (d.page q).dirty = true → (w.cache.page q).dirty = true ∨
      s.pc.cleans q = true ∧ (w.cache.page q).valid = true)
    (buffers : BufferLaw d.page (w.tasks.set i s) live) :
    ({ w with live := live }.setCache d |>.setTask i s).Law := by
  have there : ∀ j, (w.tasks.set i s)[j]? = if j = i then some s else w.tasks[j]? :=
    get_set at_i s
  refine ⟨indexed, ?_, ?_, ?_, ?_, ?_, ?_, ?_, buffers⟩
  · intro q
    change (d.page q).pin = ((w.tasks.set i s).map (Task.pins d.page q)).sum
    have moved := sum_set_congr (f := Task.pins w.cache.page q) (g := Task.pins d.page q) s at_i
      fun j u _ _ => alike.pins q u
    have before := law.pins q
    have change_q := pins q
    rw [alike.pins q s] at moved
    omega
  · intro j u at_j
    apply alike.pcOk
    rcases set_cases at_j with ⟨-, rfl⟩ | ⟨-, before⟩
    · exact pc
    · exact law.pcs j u before
  · intro j u at_j
    apply alike.heldOk
    rcases set_cases at_j with ⟨-, rfl⟩ | ⟨-, before⟩
    · exact held
    · exact law.held j u before
  · intro q valid
    change (d.page q).used = true
    rw [alike.used]
    exact law.used q ((alike.valid q).symm.trans valid)
  · intro q unused
    have before : (w.cache.page q).used = false := (alike.used q).symm.trans unused
    have invalid : (w.cache.page q).valid = false := by
      by_contra valid
      rw [law.used q (by simpa using valid)] at before
      cases before
    change (d.page q).pin = 0
    rw [alike.invalid q invalid]
    exact law.unused q before
  · intro q valid
    change (d.page q).data ≠ none
    rw [alike.data]
    exact law.data q ((alike.valid q).symm.trans valid)
  · intro q is_dirty
    change (d.page q).valid = true ∧ ∃ (j : Nat) (u : Task), (w.tasks.set i s)[j]? = some u ∧ _
    rw [alike.valid]
    rcases dirty q is_dirty with before | ⟨now, valid⟩
    · obtain ⟨valid, j, u, at_j, clean⟩ := law.dirty q before
      refine ⟨valid, ?_⟩
      by_cases same : j = i
      · subst same
        rw [at_i] at at_j
        cases at_j
        rcases cleans q clean with still | done
        · exact ⟨j, s, by rw [there, if_pos rfl], still⟩
        · rw [show (d.page q).dirty = true from is_dirty] at done
          cases done
      · exact ⟨j, u, by rw [there, if_neg same, at_j], clean⟩
    · exact ⟨valid, i, s, by rw [there, if_pos rfl], now⟩

/-! ## One task changes a page of its own -/

/-- The other tasks have nothing to do with the page. -/
def Alone (w : World) (i p : Nat) : Prop :=
  ∀ (j : Nat) (u : Task), w.tasks[j]? = some u → j ≠ i → Task.pins w.cache.page p u = 0

theorem Law.alone_of_unpinned (law : w.Law) (unpinned : (w.cache.page p).pin = 0) :
    (∀ (j : Nat) (u : Task), w.tasks[j]? = some u → Task.pins w.cache.page p u = 0) := by
  intro j u at_j
  have bound := le_sum (Task.pins w.cache.page p) at_j
  rw [← law.pins p, unpinned] at bound
  omega

theorem Law.alone_of_slot (law : w.Law) (at_i : w.tasks[i]? = some t)
    (one : (w.cache.page p).pin = 1) (mine : 0 < t.pc.pins p) : w.Alone i p := by
  intro j u at_j differ
  have bound := add_le_sum (Task.pins w.cache.page p) at_i at_j (Ne.symm differ)
  rw [← law.pins p, one] at bound
  have here : t.pc.pins p ≤ Task.pins w.cache.page p t := Nat.le_add_right _ _
  omega

theorem Law.own {d : Cache} {x : Page} (law : w.Law) (at_i : w.tasks[i]? = some t)
    (indexed : d.Indexed) (page : d.page = Function.update w.cache.page p x) (alone : w.Alone i p)
    (fresh : x.valid = true → ∀ (j : Nat) (u : Task), w.tasks[j]? = some u →
      ∀ y ∈ u.held, y.1 ≠ x.key)
    (pins : x.pin + Task.pins w.cache.page p t = (w.cache.page p).pin + Task.pins d.page p s)
    (others : ∀ q, q ≠ p → Task.pins w.cache.page q s = Task.pins w.cache.page q t)
    (pc : PcOk d.page s.pc) (held : HeldOk d.page s.held) (used : x.valid = true → x.used = true)
    (unused : x.used = false → x.pin = 0) (data : x.valid = true → x.data ≠ none)
    (clean : x.dirty = false) (idle : ∀ q, t.pc.cleans q = false)
    (buffers : BufferLaw d.page (w.tasks.set i s) live) :
    ({ w with live := live }.setCache d |>.setTask i s).Law := by
  have there : ∀ j, (w.tasks.set i s)[j]? = if j = i then some s else w.tasks[j]? :=
    get_set at_i s
  have here : ∀ q, d.page q = if q = p then x else w.cache.page q := by
    intro q
    rw [page, update_apply]
  have each : ∀ P : Page → Prop, P x → (∀ q, P (w.cache.page q)) → ∀ q, P (d.page q) := by
    intro P own others q
    rw [here]
    split
    · exact own
    · exact others q
  refine ⟨indexed, ?_, ?_, ?_, ?_, ?_, ?_, ?_, buffers⟩
  · intro q
    change (d.page q).pin = ((w.tasks.set i s).map (Task.pins d.page q)).sum
    have before := law.pins q
    by_cases same : q = p
    · subst same
      have moved := sum_set_congr (f := Task.pins w.cache.page q) (g := Task.pins d.page q) s at_i
        fun j u at_j differ => by
          have zero := alone j u at_j differ
          rw [zero, page]
          exact pins_update_zero (away_of_pins zero).1 fun valid => fresh valid j u at_j
      rw [here, if_pos rfl]
      omega
    · have still : ∀ u, Task.pins d.page q u = Task.pins w.cache.page q u := by
        intro u
        rw [page]
        exact pins_update_ne same u
      have moved := sum_set_congr (f := Task.pins w.cache.page q) (g := Task.pins d.page q) s at_i
        fun j u _ _ => still u
      have other := others q same
      rw [still s] at moved
      rw [here, if_neg same]
      omega
  · intro j u at_j
    rcases set_cases at_j with ⟨-, rfl⟩ | ⟨other, before⟩
    · exact pc
    · exact page ▸ pcOk_update (law.pcs j u before) (away_of_pins (alone j u before other)).1
  · intro j u at_j
    rcases set_cases at_j with ⟨-, rfl⟩ | ⟨other, before⟩
    · exact held
    · exact page ▸ heldOk_update (law.held j u before) (away_of_pins (alone j u before other)).2
  · exact each (fun x => x.valid = true → x.used = true) used law.used
  · exact each (fun x => x.used = false → x.pin = 0) unused law.unused
  · exact each (fun x => x.valid = true → x.data ≠ none) data law.data
  · intro q is_dirty
    change (d.page q).dirty = true at is_dirty
    change (d.page q).valid = true ∧ ∃ (j : Nat) (u : Task), (w.tasks.set i s)[j]? = some u ∧ _
    by_cases same : q = p
    · rw [here, if_pos same, clean] at is_dirty
      cases is_dirty
    rw [here, if_neg same] at is_dirty ⊢
    obtain ⟨valid, j, u, at_j, cleans⟩ := law.dirty q is_dirty
    refine ⟨valid, j, u, ?_, cleans⟩
    rw [there, if_neg, at_j]
    rintro rfl
    rw [at_i] at at_j
    cases at_j
    rw [idle q] at cleans
    cases cleans

end World

end CactKernel.PageCache
