import CactKernel.Block.PageRuns

/-! # What the steps of the page cache do to the pages

A page that stays in the cache keeps its block and its buffer. Its flag is set by
`pc_mark_dirty` and cleared at the end of a write-back, and by no other step; a page with
the flag does not leave the cache. A page gets into the cache at the second look of
`pc_get_page`. A buffer that was returned and not put back is the buffer of its block. -/

set_option autoImplicit false

namespace CactKernel.PageCache

open Lib Option Function

/-- Pages that stay in the cache keep what they hold and their flag. -/
structure Carried (page page' : Nat → Page) : Prop where
  same : ∀ q, (page q).valid = true → (page' q).valid = true →
    (page' q).key = (page q).key ∧ (page' q).blockSize = (page q).blockSize ∧
      (page' q).data = (page q).data ∧ ((page q).dirty = true → (page' q).dirty = true)
  dirty : ∀ q, (page' q).dirty = true → (page q).dirty = true
  stays : ∀ q, (page q).valid = true → (page q).dirty = true → (page' q).valid = true

theorem Carried.refl (page : Nat → Page) : Carried page page :=
  ⟨fun _ _ _ => ⟨rfl, rfl, rfl, id⟩, fun _ => id, fun _ valid _ => valid⟩

variable {page : Nat → Page} {p : Nat} {x : Page}

theorem Carried.update
    (same : (page p).valid = true → x.valid = true → x.key = (page p).key ∧
      x.blockSize = (page p).blockSize ∧ x.data = (page p).data ∧
      ((page p).dirty = true → x.dirty = true))
    (dirty : x.dirty = true → (page p).dirty = true)
    (stays : (page p).valid = true → (page p).dirty = true → x.valid = true) :
    Carried page (Function.update page p x) := by
  refine ⟨?_, ?_, ?_⟩ <;> intro q <;> by_cases here : q = p
  · rw [here, update_self]
    exact same
  · rw [update_of_ne here]
    exact fun _ _ => ⟨rfl, rfl, rfl, id⟩
  · rw [here, update_self]
    exact dirty
  · rw [update_of_ne here]
    exact id
  · rw [here, update_self]
    exact stays
  · rw [update_of_ne here]
    exact fun valid _ => valid

theorem Carried.pin (p n : Nat) : Carried page (Function.update page p { page p with pin := n }) :=
  .update (fun _ _ => ⟨rfl, rfl, rfl, id⟩) id fun valid _ => valid

theorem Carried.drop (before : (page p).dirty = false) (invalid : x.valid = false)
    (clean : x.dirty = false) : Carried page (Function.update page p x) := by
  apply Carried.update
  · intro _ valid
    rw [invalid] at valid
    cases valid
  · intro dirty
    rw [clean] at dirty
    cases dirty
  · intro _ dirty
    rw [before] at dirty
    cases dirty

/-- Every page in use has the block size of its device. -/
def Sized (size : UInt32 → UInt32) (page : Nat → Page) : Prop :=
  ∀ q, (page q).used = true → (page q).blockSize = size (page q).key.dev

theorem Sized.update {size : UInt32 → UInt32} (sized : Sized size page)
    (here : x.used = true → x.blockSize = size x.key.dev) :
    Sized size (Function.update page p x) := by
  intro q
  rw [update_apply]
  split
  · exact here
  · exact sized q

/-- The block that the task has missed is of the size of its device. -/
def Pc.SizeOk (size : UInt32 → UInt32) : Pc → Prop
  | .missed k n => n = size k.dev
  | _ => True

/-- A write-back begins for a dirty page. -/
def Pc.Next (page : Nat → Page) (op : Op) (pc : Pc) : Pc → Prop
  | .missed k n => op = .get k n
  | .writeback p .opened _ => (page p).dirty = true
  | .writeback p .writing after => pc = .writeback p .opened after
  | .writeback p .written after => pc = .writeback p .opened after
  | _ => True

/-- A step that marks no page and clears no flag. Only a call of `pc_put_page` gives up a block. -/
structure Turn (size : UInt32 → UInt32) (w w' : World) (i : Nat) (op : Op) (pc : Pc)
    (held : List (Key × Nat)) : Prop where
  carried : Carried w.cache.page w'.cache.page
  sized : pc.SizeOk size → Sized size w.cache.page → Sized size w'.cache.page
  fresh : ∀ q, (w.cache.page q).valid = false → (w'.cache.page q).valid = true →
    pc = .filled (w'.cache.page q).key q ∧ w.cache.hashFind (w'.cache.page q).key = some none ∧
      (w'.cache.page q).data = (w.cache.page q).data
  tasks : ∃ pc' held', w'.tasks = w.tasks.set i ⟨pc', held'⟩ ∧ pc.Next w.cache.page op pc' ∧
    ((∀ k, op ≠ .put k) → held ⊆ held')

namespace World

variable {size : UInt32 → UInt32} {w w' : World} {i : Nat} {held : List (Key × Nat)} {pc : Pc}
  {op : Op}

variable {t : Task} {p : Nat} {k : Key} {buffer : Option Nat}

theorem Law.window (law : w.Law) (at_i : w.tasks[i]? = some t) {stage : Stage} {after : After}
    (pc : t.pc = .writeback p stage after) : (w.cache.page p).valid = true := by
  have ok := law.pcs i t at_i
  rw [pc] at ok
  exact ok.1

theorem turn_stay (pc' : Pc) (held' : List (Key × Nat)) (page : w'.cache.page = w.cache.page)
    (tasks : w'.tasks = w.tasks.set i ⟨pc', held'⟩)
    (next : pc.Next w.cache.page op pc')
    (kept : (∀ k, op ≠ .put k) → held ⊆ held' := by simp) :
    Turn size w w' i op pc held := by
  refine ⟨?_, ?_, ?_, pc', held', tasks, next, kept⟩
  · rw [page]
    exact .refl _
  · rw [page]
    exact fun _ => id
  · intro q invalid valid
    rw [page, invalid] at valid
    cases valid

theorem turn_update {x : Page} (pc' : Pc) (held' : List (Key × Nat))
    (page : w'.cache.page = Function.update w.cache.page p x)
    (carried : Carried w.cache.page (Function.update w.cache.page p x))
    (sized : pc.SizeOk size → Sized size w.cache.page → x.used = true →
      x.blockSize = size x.key.dev)
    (old : x.valid = true → (w.cache.page p).valid = true)
    (tasks : w'.tasks = w.tasks.set i ⟨pc', held'⟩) (next : pc.Next w.cache.page op pc')
    (kept : (∀ k, op ≠ .put k) → held ⊆ held' := by simp) : Turn size w w' i op pc held := by
  refine ⟨page ▸ carried, ?_, ?_, pc', held', tasks, next, kept⟩
  · intro ok before
    rw [page]
    exact before.update (sized ok before)
  · intro q invalid valid
    rw [page, update_apply] at valid
    split at valid
    · rename_i here
      rw [here, old valid] at invalid
      cases invalid
    · rw [invalid] at valid
      cases valid

theorem turn_pin {n : Nat} (pc' : Pc) (held' : List (Key × Nat))
    (page : w'.cache.page = Function.update w.cache.page p { w.cache.page p with pin := n })
    (tasks : w'.tasks = w.tasks.set i ⟨pc', held'⟩) (next : pc.Next w.cache.page op pc')
    (kept : (∀ k, op ≠ .put k) → held ⊆ held' := by simp) : Turn size w w' i op pc held :=
  turn_update pc' held' page (.pin p n) (fun _ sized used => sized p used) id tasks next kept

theorem page_pin_touch (c : Cache) (p : Nat) : ((c.pin p).lruTouch p).page =
    Function.update c.page p { c.page p with pin := (c.page p).pin + 1 } :=
  (Cache.lruTouch_same (c.pin p) p).page

theorem flush_turn (dev : UInt32) (j : Nat) (sweep : Bool) :
    Turn size w (w.flush i ⟨pc, held⟩ dev j sweep) i op pc held := by
  rw [flush]
  split
  · rename_i n found
    have wanted := next_some found
    simp only [Bool.and_eq_true] at wanted
    exact turn_pin _ _ rfl rfl wanted.1.2
  · refine turn_stay _ _ rfl rfl ?_
    cases sweep <;> trivial

/-- A dirty page is pinned by the task that writes it. -/
theorem Law.clean (law : w.Law) (unpinned : (w.cache.page p).pin = 0) :
    (w.cache.page p).dirty = false := by
  by_contra dirty
  obtain ⟨valid, j, u, at_j, cleans⟩ := law.dirty p (Bool.eq_true_of_not_eq_false dirty)
  exact pins_ne_of_cleans cleans (away_of_pins (law.alone_of_unpinned unpinned j u at_j)).1

theorem detach_turn {rest : Option (UInt32 × Nat)} {r : Option Nat × Cache}
    (indexed : w.cache.Indexed) (there : w.cache.On p)
    (clean : (w.cache.page p).dirty = false) (run : w.cache.detach p = some r) :
    Turn size w ((w.setCache r.2).setTask i ⟨.freeing r.1 rest, held⟩) i op pc held := by
  obtain ⟨d, run', _, page⟩ := indexed.detach there
  rw [run] at run'
  have result := some.inj run'
  have removed : r.2.page = update w.cache.page p
      { (w.cache.page p).cleared with data := none } := by
    rw [result]
    exact page
  exact turn_update _ _ removed (.drop clean rfl rfl) nofun nofun rfl trivial

theorem take_turn {n : UInt32} (law : w.Law) (run : w.take i ⟨.missed k n, held⟩ k n = some w') :
    Turn size w w' i op (.missed k n) held := by
  rw [take] at run
  rcases law.indexed.allocPage with none | ⟨p, found, _, unused⟩ |
    ⟨p, d, found, _, unpinned, _, page⟩
  · rw [none] at run
    cases run
    exact turn_stay .idle held rfl rfl trivial
  · rw [found] at run
    cases run
    have clean := law.clean (law.unused p unused)
    exact turn_update (.slot k p) held rfl (.drop clean rfl rfl) (fun ok _ _ => ok)
      (by simp) rfl trivial
  rw [found] at run
  cases run
  have slot : ∀ x, (d.setPage p x).page = update w.cache.page p x := by
    intro x
    rw [Cache.setPage, page, update_idem]
  exact turn_update (.slot k p) held (slot _) (.drop (law.clean unpinned) rfl rfl)
    (fun ok _ _ => ok) (by simp) rfl trivial

theorem fill_turn (law : w.Law) (at_i : w.tasks[i]? = some ⟨.slot k p, held⟩)
    (run : w.fill i ⟨.slot k p, held⟩ k p buffer = some w') :
    Turn size w w' i op (.slot k p) held := by
  have slot : Slot w.cache.page k p := law.pcs i _ at_i
  rw [fill.eq_def] at run
  split at run
  · cases run
    exact turn_stay _ _ rfl rfl trivial
  · cases run
    exact turn_stay _ _ rfl rfl trivial
  split at run
  · cases run
  cases run
  refine turn_update _ _ rfl (.update ?_ id fun valid _ => valid)
    (fun _ sized used => sized p used) id rfl trivial
  intro valid
  rw [slot.invalid] at valid
  cases valid

theorem publish_turn (law : w.Law) (at_i : w.tasks[i]? = some ⟨.filled k p, held⟩)
    (run : w.publish i ⟨.filled k p, held⟩ k p = some w') :
    Turn size w w' i op (.filled k p) held := by
  obtain ⟨slot, _⟩ : Slot w.cache.page k p ∧ (w.cache.page p).data ≠ none := law.pcs i _ at_i
  obtain ⟨found, looked, equal⟩ := map_eq_some_iff.mp run
  cases found with
  | some e =>
    rw [← equal]
    exact turn_pin _ _ (page_pin_touch w.cache e) rfl trivial
  | none =>
    have page : w'.cache.page = update w.cache.page p { w.cache.page p with valid := true } := by
      rw [← equal]
      exact (Cache.lruTouch_same
        ((w.cache.setPage p { w.cache.page p with valid := true }).hashInsert p) p).page
    refine ⟨page ▸ .update ?_ id fun _ _ => rfl, fun _ sized => page ▸ sized.update (sized p), ?_,
      .found k p, held, by rw [← equal]; rfl, trivial, fun _ => .refl _⟩
    · intro valid
      rw [slot.invalid] at valid
      cases valid
    · intro q invalid valid
      rw [page, update_apply] at valid
      split at valid
      · rename_i here
        rw [page, here, update_self]
        dsimp only
        rw [slot.key]
        exact ⟨rfl, looked, rfl⟩
      · rw [invalid] at valid
        cases valid

theorem go_turn {maxLba : UInt32 → Option Nat} (law : w.Law)
    (at_i : w.tasks[i]? = some ⟨pc, held⟩) (run : w.go maxLba i ⟨pc, held⟩ buffer = some w')
    (not_writing : ∀ p after, pc ≠ .writeback p .writing after) :
    Turn size w w' i (.go buffer) pc held := by
  rw [go.eq_def] at run
  cases pc with
  | idle => cases run
  | missed k n =>
    dsimp only at run
    split at run
    · exact take_turn law run
    · cases run
      exact turn_stay _ _ rfl rfl trivial
  | slot k p => exact fill_turn law at_i run
  | noMemory p =>
    obtain ⟨_, slot⟩ : ∃ k, Slot w.cache.page k p := law.pcs i _ at_i
    cases run
    exact turn_update _ _ rfl (.drop (law.clean_of_slot slot) rfl rfl) (by simp)
      (by simp) rfl trivial
  | beaten k p e =>
    obtain ⟨slot, -⟩ : Slot w.cache.page k p ∧ _ := law.pcs i _ at_i
    cases run
    exact turn_update _ _ rfl (.drop (law.clean_of_slot slot) rfl rfl) (by simp)
      (by simp) rfl trivial
  | filled k p => exact publish_turn law at_i run
  | found k p =>
    dsimp only at run
    split at run
    · cases run
      exact turn_stay _ _ rfl rfl trivial
    · cases run
      exact turn_stay _ _ rfl rfl trivial
  | writeback p stage after =>
    obtain ⟨_, not_remove⟩ : w.cache.On p ∧ after ≠ .remove := law.pcs i _ at_i
    cases stage with
    | opened =>
      cases run
      refine turn_stay _ _ rfl rfl ?_
      cases (w.cache.page p).dirty <;> rfl
    | writing => exact absurd rfl (not_writing p after)
    | written =>
      cases after with
      | done | flush dev j sweep =>
        cases run
        exact turn_pin _ _ rfl rfl trivial
      | remove => exact absurd rfl not_remove
  | flush dev j sweep =>
    cases run
    exact flush_turn dev j sweep
  | sweep dev j =>
    dsimp only at run
    rw [sweep] at run
    split at run
    · rename_i n found
      have wanted := next_some found
      simp only [Bool.and_eq_true] at wanted
      obtain ⟨r, removed, equal⟩ := map_eq_some_iff.mp run
      rw [← equal]
      exact detach_turn law.indexed wanted.1.1 (law.clean (of_decide_eq_true wanted.2)) removed
    · cases run
      exact turn_stay _ _ rfl rfl trivial
  | freeing data rest =>
    cases run
    refine turn_stay _ _ rfl rfl ?_
    cases rest <;> trivial

theorem set_self (at_i : w.tasks[i]? = some t) : w.tasks.set i t = w.tasks := by
  apply List.ext_getElem?
  intro j
  rw [get_set at_i]
  split
  · rename_i same
    rw [same, at_i]
  · rfl

theorem put_turn (run : w.put i ⟨.idle, held⟩ k = some w') :
    Turn size w w' i (.put k) .idle held := by
  rw [put] at run
  split at run
  · obtain ⟨found, _, equal⟩ := map_eq_some_iff.mp run
    rw [← equal]
    cases found with
    | none => exact turn_stay _ _ rfl rfl trivial
    | some p =>
      dsimp only
      split
      · exact turn_stay _ _ rfl rfl trivial
      · exact turn_pin _ _ rfl rfl trivial
  · cases run

theorem call_turn (law : w.Law) (at_i : w.tasks[i]? = some ⟨.idle, held⟩)
    (run : w.call i ⟨.idle, held⟩ op = some w') (not_mark : ∀ k, op ≠ .markDirty k) :
    Turn size w w' i op .idle held := by
  cases op with
  | get k n =>
    obtain ⟨found, _, equal⟩ := map_eq_some_iff.mp run
    rw [← equal]
    cases found with
    | none => exact turn_stay _ _ rfl rfl rfl
    | some p => exact turn_pin _ _ (page_pin_touch w.cache p) rfl trivial
  | markDirty k => exact absurd rfl (not_mark k)
  | put k => exact put_turn run
  | flushDev dev =>
    cases run
    exact flush_turn dev 0 false
  | invalidateBlock k =>
    obtain ⟨found, lookup, result⟩ := bind_eq_some_iff.mp run
    have unchanged : Turn size w w i (.invalidateBlock k) .idle held :=
      turn_stay .idle held rfl (set_self at_i).symm trivial
    cases found with
    | none => exact some.inj result ▸ unchanged
    | some p =>
      dsimp only at result
      split at result
      · exact some.inj result ▸ unchanged
      split at result
      · rename_i dirty
        cases result
        exact turn_pin _ _ rfl rfl dirty
      rename_i clean
      obtain ⟨r, removed, equal⟩ := map_eq_some_iff.mp result
      have there : w.cache.On p := by
        rcases law.indexed.hashFind k with ⟨missing, _⟩ | ⟨q, found, there, _⟩
        · rw [lookup] at missing
          cases missing
        rw [lookup] at found
        cases found
        exact there
      rw [← equal]
      exact detach_turn law.indexed there (Bool.eq_false_iff.mpr clean) removed
  | invalidateDev dev =>
    cases run
    exact flush_turn dev 0 true
  | go buffer => cases run

theorem markDirty_run (law : w.Law) (run : w.markDirty i ⟨.idle, held⟩ k = some w') :
    (w.cache.hashFind k = some none ∧ w' = w) ∨
    ∃ p, w.cache.hashFind k = some (some p) ∧ w.cache.On p ∧ (w.cache.page p).key = k ∧
      w'.cache.page = update w.cache.page p
        { w.cache.page p with dirty := true, pin := (w.cache.page p).pin + 1 } ∧
      w'.tasks = w.tasks.set i ⟨.writeback p .opened .done, held⟩ := by
  rw [markDirty] at run
  rcases law.indexed.hashFind k with ⟨missing, _⟩ | ⟨p, found, there, key⟩
  · rw [missing] at run
    exact .inl ⟨missing, (some.inj run).symm⟩
  rw [found] at run
  refine .inr ⟨p, found, there, key, ?_⟩
  cases run
  refine ⟨?_, rfl⟩
  simp [setTask, setCache, Cache.pin, Cache.setPage]

/-! ## Held buffers -/

variable {maxLba : UInt32 → Option Nat}

/-- The buffer is allocated, is that of the block and of no other page, and nobody frees it. -/
def InUse (w : World) (k : Key) (b : Nat) : Prop :=
  w.live b = true ∧
  (∃ p, (w.cache.page p).valid = true ∧ (w.cache.page p).key = k ∧
    (w.cache.page p).data = some b ∧ ∀ q, (w.cache.page q).data = some b → q = p) ∧
  ∀ (j : Nat) (u : Task), w.tasks[j]? = some u → u.pc.frees b = 0

theorem Law.inUse (law : w.Law) (at_i : w.tasks[i]? = some t) {b : Nat} (held : (k, b) ∈ t.held) :
    w.InUse k b := by
  obtain ⟨p, valid, key, data⟩ := law.held i t at_i (k, b) held
  refine ⟨law.buffers.backed p b data, ⟨p, valid, key, data, ?_⟩, ?_⟩
  · intro q same
    exact law.buffers.one q p b same data
  · intro j u at_j
    have bound := le_sum (fun u : Task => u.pc.frees b) at_j
    rw [law.buffers.kept p b data] at bound
    exact Nat.le_zero.mp bound

end World

end CactKernel.PageCache
