import CactKernel.Block.PageContents
import CactKernel.Block.PageTurns

/-! # What is marked dirty is not lost

A write-back copies the whole page, so it has everything that was marked before it began.
A page that is marked while a write-back of it is under way loses its flag to that
write-back, and nothing else is left to tell that the page must be written. A page that
`pc_get_page` read before another task's modification went to the disk hides it. -/

set_option autoImplicit false

namespace CactKernel.PageCache

open Lib List Option Function Nat Reach World

/-! ## Sectors -/

/-- The device is there, and the sectors of the block have numbers of their own. -/
structure Disks.Ready (disks : Disks) (k : Key) : Prop where
  registered : disks.registered k.dev = true
  fits : k.blockNo.toNat * sectorsOf (disks.size k.dev) + sectorsOf (disks.size k.dev) ≤ 2 ^ 32

theorem toNat_lbaOf {k : Key} {size : UInt32} {n : Nat} (inside : n < sectorsOf size)
    (fits : k.blockNo.toNat * sectorsOf size + sectorsOf size ≤ 2 ^ 32) :
    (lbaOf k size n).toNat = k.blockNo.toNat * sectorsOf size + n := by
  have small : n < 2 ^ 32 := by omega
  have sectors : (size / 512).toNat = sectorsOf size := UInt32.toNat_div size 512
  rw [lbaOf, UInt32.toNat_add, UInt32.toNat_mul, sectors, UInt32.toNat_ofNat_of_lt' small,
    mod_add_mod, mod_eq_of_lt]
  omega

theorem Disks.Ready.apart {disks : Disks} {k k' : Key} {n n' : Nat} (ready : disks.Ready k)
    (ready' : disks.Ready k') (dev : k.dev = k'.dev) (inside : n < sectorsOf (disks.size k.dev))
    (inside' : n' < sectorsOf (disks.size k'.dev))
    (same : lbaOf k (disks.size k.dev) n = lbaOf k' (disks.size k'.dev) n') : k = k' ∧ n = n' := by
  have fits := ready.fits
  have fits' := ready'.fits
  have first := toNat_lbaOf inside fits
  have second := toNat_lbaOf inside' fits'
  rw [same, second, dev] at first
  rw [dev] at inside
  have positive : 0 < sectorsOf (disks.size k'.dev) := by omega
  have block : k'.blockNo.toNat = k.blockNo.toNat := by
    have quotient := congrArg (fun x => x / sectorsOf (disks.size k'.dev)) first
    simp only [mul_comm _ (sectorsOf (disks.size k'.dev)), mul_add_div positive,
      div_eq_of_lt inside, div_eq_of_lt inside', add_zero] at quotient
    exact quotient
  refine ⟨?_, ?_⟩
  · obtain ⟨d, b⟩ := k
    obtain ⟨d', b'⟩ := k'
    rw [Key.mk.injEq]
    exact ⟨dev, (UInt32.toNat_inj.mp block).symm⟩
  · rw [block] at first
    omega

/-! ## The calls -/

namespace Store

variable {α : Type} {disks : Disks} {s : Store α} {i : Nat}

/-- What was seen is in the page of the block, if it is cached, and is on the disk or going to be
written. -/
structure CallOk (disks : Disks) (s : Store α) (c : Call α) : Prop where
  ready : disks.Ready c.key
  seen : ∀ p b, (s.page p).valid = true → (s.page p).key = c.key → (s.page p).data = some b →
    ∀ n, n < disks.sectors c.key → c.seen n <:+ s.buffer b n
  saved : s.OnDisk disks c ∨ s.Flagged c.key

structure Law (disks : Disks) (s : Store α) : Prop where
  world : s.world.Law
  sized : Sized disks.size s.world.cache.page
  missed : ∀ (i : Nat) (t : Task), s.world.tasks[i]? = some t → t.pc.SizeOk disks.size
  dirty : ∀ p, (s.page p).dirty = true → disks.Ready (s.page p).key
  windows : ∀ (i : Nat) (t : Task) (p : Nat) (stage : Stage) (after : After),
    s.world.tasks[i]? = some t → t.pc = .writeback p stage after → disks.Ready (s.page p).key
  calls : ∀ c ∈ s.calls, s.CallOk disks c
  /-- The sectors that are written have all that was marked. -/
  writing : ∀ (i : Nat) (t : Task) (p : Nat) (after : After), s.world.tasks[i]? = some t →
    t.pc = .writeback p .writing after → ∀ c ∈ s.calls, c.key = (s.page p).key →
    ∀ n, n < s.written i → n < disks.sectors c.key → c.seen n <:+ s.block disks c.key n

/-- What a step that marks no page does to the rest. -/
structure Effect (s e : Store α) (i : Nat) (pc : Pc) : Prop where
  world : e.world = s.world
  disk : e.disk = s.disk
  buffer : ∀ q b, (s.page q).valid = true → (s.page q).data = some b → e.buffer b = s.buffer b
  others : ∀ j, j ≠ i → e.written j = s.written j
  opened : ∀ p after, pc = .writeback p .opened after → e.written i = 0
  calls : ∀ c ∈ e.calls, ∃ c₀ ∈ s.calls, c₀.key = c.key ∧ c₀.seen = c.seen

variable {pc : Pc} {w : World} {p : Nat}

theorem Law.page_unique {q : Nat} (law : s.Law disks) (there : (s.page p).valid = true)
    (there' : (s.page q).valid = true) (key : (s.page q).key = (s.page p).key) : q = p :=
  law.world.indexed.keys q p there' there key

/-- A step of one task that writes nothing: pages that stay in the cache keep their blocks, and a
call is an old one or is made while no task is in the loop that writes its page. -/
theorem Law.carried {e : Store α} {pc' : Pc} {held' : List (Key × Nat)} (law : s.Law disks)
    (after : w.Law)
    (kept : ∀ q, (s.page q).valid = true → (w.cache.page q).valid = true →
      (w.cache.page q).key = (s.page q).key)
    (sized : Sized disks.size w.cache.page)
    (tasks : w.tasks = s.world.tasks.set i ⟨pc', held'⟩) (size : pc'.SizeOk disks.size)
    (disk : e.disk = s.disk) (others : ∀ j, j ≠ i → e.written j = s.written j)
    (window : ∀ p stage after, pc' = .writeback p stage after → (s.page p).valid = true ∧
      disks.Ready (s.page p).key ∧ (stage = .writing → e.written i = 0))
    (dirty : ∀ q, (w.cache.page q).dirty = true →
      (s.page q).valid = true ∧ disks.Ready (s.page q).key)
    (calls : ∀ c ∈ e.calls, CallOk disks { e with world := w } c)
    (new : ∀ c ∈ e.calls, (∃ c₀ ∈ s.calls, c₀.key = c.key ∧ c₀.seen = c.seen) ∨
      ∀ (j : Nat) (u : Task) (q : Nat) (rest : After), s.world.tasks[j]? = some u →
        (s.page q).key = c.key → u.pc ≠ .writeback q .writing rest) :
    Law disks { e with world := w } := by
  have ready : ∀ q, (s.page q).valid = true ∧ disks.Ready (s.page q).key →
      (w.cache.page q).valid = true → disks.Ready (w.cache.page q).key := by
    rintro q ⟨before, ok⟩ now
    rw [kept q before now]
    exact ok
  have at_task : ∀ j u, w.tasks[j]? = some u →
      j = i ∧ u = ⟨pc', held'⟩ ∨ j ≠ i ∧ s.world.tasks[j]? = some u := by
    rw [tasks]
    exact fun _ _ => set_cases
  refine ⟨after, sized, ?_, fun q now => ready q (dirty q now) (after.dirty q now).1, ?_, calls, ?_⟩
  · intro j u at_j
    rcases at_task j u at_j with ⟨-, rfl⟩ | ⟨-, before⟩
    · exact size
    · exact law.missed j u before
  · intro j u p stage rest at_j pc_j
    apply ready p _ (after.window at_j pc_j)
    rcases at_task j u at_j with ⟨-, rfl⟩ | ⟨-, before⟩
    · obtain ⟨valid, ok, -⟩ := window p stage rest pc_j
      exact ⟨valid, ok⟩
    · exact ⟨law.world.window before pc_j, law.windows j u p stage rest before pc_j⟩
  · intro j u p rest at_j pc_j c member key n below inside
    change n < e.written j at below
    change c.key = (w.cache.page p).key at key
    rcases at_task j u at_j with ⟨rfl, rfl⟩ | ⟨other, before⟩
    · rw [(window p _ rest pc_j).2.2 rfl] at below
      cases below
    rw [others j other] at below
    have same := kept p (law.world.window before pc_j) (after.window at_j pc_j)
    change c.seen n <:+ e.disk c.key.dev _
    rw [disk]
    rcases new c member with ⟨c₀, member₀, key₀, seen⟩ | quiet
    · rw [← key₀] at key inside ⊢
      rw [← seen]
      exact law.writing j u p rest before pc_j c₀ member₀ (key.trans same) n below inside
    · exact absurd pc_j (quiet j u p rest before (same.symm.trans key.symm))

variable {held : List (Key × Nat)}

theorem Law.turn {e : Store α} {op : Op} (law : s.Law disks)
    (at_i : s.world.tasks[i]? = some ⟨pc, held⟩) (effect : Effect s e i pc)
    (turn : Turn disks.size s.world w i op pc held) (after : w.Law)
    (size : ∀ k n, op = .get k n → n = disks.size k.dev)
    (fresh : ∀ q b, (s.page q).valid = false → (w.cache.page q).valid = true →
      (w.cache.page q).data = some b → disks.Ready (w.cache.page q).key →
      ∀ n, n < disks.sectors (w.cache.page q).key →
        e.buffer b n = s.block disks (w.cache.page q).key n) :
    Law disks { e with world := w } := by
  obtain ⟨pc', held', tasks, next, -⟩ := turn.tasks
  refine law.carried after ?_ (turn.sized (law.missed i _ at_i) law.sized) tasks ?_
    effect.disk effect.others ?_ ?_ ?_ fun c member => .inl (effect.calls c member)
  · exact fun q before now => (turn.carried.same q before now).1
  · cases pc' with
    | missed k n => exact size k n next
    | _ => trivial
  · rintro p stage rest rfl
    cases stage with
    | opened => exact ⟨(law.world.dirty p next).1, law.dirty p next, nofun⟩
    | writing =>
      exact ⟨law.world.window at_i next, law.windows i _ p _ _ at_i next,
        fun _ => effect.opened p rest next⟩
    | written =>
      exact ⟨law.world.window at_i next, law.windows i _ p _ _ at_i next, nofun⟩
  · intro q now
    have before := turn.carried.dirty q now
    exact ⟨(law.world.dirty q before).1, law.dirty q before⟩
  · intro c member
    obtain ⟨c₀, member₀, key₀, seen₀⟩ := effect.calls c member
    obtain ⟨ok, contained, saved⟩ := law.calls c₀ member₀
    have flagged : s.Flagged c₀.key → ∃ q, (s.page q).valid = true ∧
        (w.cache.page q).valid = true ∧ (w.cache.page q).key = c.key ∧
        (w.cache.page q).dirty = true := by
      rintro ⟨q, valid, key, dirty⟩
      have now := turn.carried.stays q valid dirty
      obtain ⟨same, -, -, still⟩ := turn.carried.same q valid now
      exact ⟨q, valid, now, same.trans (key.trans key₀), still dirty⟩
    rw [key₀] at ok contained
    rw [OnDisk, key₀, seen₀] at saved
    refine ⟨ok, ?_, ?_⟩
    · intro q b now key data n inside
      change (w.cache.page q).valid = true at now
      change (w.cache.page q).key = c.key at key
      by_cases before : (s.page q).valid = true
      · obtain ⟨same, -, buffer, -⟩ := turn.carried.same q before now
        have there := buffer.symm.trans data
        change c.seen n <:+ e.buffer b n
        rw [effect.buffer q b before there, ← seen₀]
        exact contained q b before (same.symm.trans key) there n inside
      · -- the page was read when the disk had all that was marked
        change c.seen n <:+ e.buffer b n
        rw [← key] at ok inside
        rw [fresh q b (Bool.eq_false_iff.mpr before) now data ok n inside, key]
        rw [key] at inside
        refine saved.resolve_right ?_ n inside
        intro marked
        obtain ⟨p, valid, now', key', -⟩ := flagged (key₀ ▸ marked)
        have same := after.indexed.keys p q now' now (key'.trans key.symm)
        exact before (same ▸ valid)
    · rcases saved with on_disk | marked
      · left
        intro n inside
        change c.seen n <:+ e.disk _ _
        rw [effect.disk]
        exact on_disk n inside
      · obtain ⟨q, -, rest⟩ := flagged (key₀ ▸ marked)
        exact .inr ⟨q, rest⟩

/-! ## The effects -/

theorem writeAll_clean (clean : (s.page p).dirty = false) : s.writeAll disks p = s := by
  rw [writeAll, clean]
  cases (s.page p).data <;> rfl

theorem Effect.refl (pc : Pc)
    (not_opened : ∀ p after, pc ≠ .writeback p .opened after := by simp) : Effect s s i pc :=
  ⟨rfl, rfl, fun _ _ _ _ => rfl, fun _ _ => rfl,
    fun p after same => absurd same (not_opened p after),
    fun c member => ⟨c, member, rfl, rfl⟩⟩

theorem effect_read {k : Key} {b : Nat} (n : UInt32)
    (not_opened : ∀ p after, pc ≠ .writeback p .opened after)
    (other : ∀ q, (s.page q).valid = true → (s.page q).data ≠ some b) :
    Effect s (s.read disks k n b) i pc := by
  have same := Effect.refl (s := s) (i := i) pc not_opened
  refine ⟨rfl, rfl, ?_, same.others, same.opened, same.calls⟩
  intro q c valid data
  apply update_of_ne
  rintro rfl
  exact other q valid data

/-- The page that is evicted has no pin, so that it is not dirty. -/
theorem clean_of_alloc (law : s.world.Law) {c : Cache}
    (found : s.world.cache.allocPage = some (some p, c)) : (s.page p).dirty = false := by
  apply law.clean
  rcases law.indexed.allocPage with none | ⟨q, run, _, unused⟩ | ⟨q, d, run, _, unpinned, _⟩
  · rw [found] at none
    cases none
  · rw [found] at run
    cases run
    exact law.unused p unused
  · rw [found] at run
    cases run
    exact unpinned

theorem go_effect {maxLba : UInt32 → Option Nat} {buffer : Option Nat} (law : s.world.Law)
    (at_i : s.world.tasks[i]? = some ⟨pc, held⟩)
    (run : s.world.go maxLba i ⟨pc, held⟩ buffer = some w) :
    Effect s (s.effect disks i ⟨pc, held⟩ (.go buffer)) i pc := by
  cases pc with
  | missed k n =>
    have same : s.effect disks i ⟨.missed k n, held⟩ (.go buffer) = s := by
      rw [effect.eq_def]
      dsimp only
      split
      · rename_i p c found
        split
        · exact writeAll_clean (clean_of_alloc law found)
        · rfl
      · rfl
    rw [same]
    exact .refl _
  | slot k p =>
    have slot : Slot s.world.cache.page k p := law.pcs i _ at_i
    rw [effect.eq_def]
    dsimp only
    split
    · rename_i b chosen
      apply effect_read
      · intro _ _ same
        cases same
      intro q valid data
      cases mine : (s.page p).data with
      | some b' =>
        rw [mine] at chosen
        cases chosen
        rw [page, law.buffers.one q p b data mine, slot.invalid] at valid
        cases valid
      | none =>
        rw [mine] at chosen
        -- the new buffer was not in use
        rw [go.eq_def] at run
        dsimp only at run
        rw [fill.eq_def] at run
        change buffer = some b at chosen
        change (s.world.cache.page p).data = none at mine
        rw [mine, chosen] at run
        dsimp only at run
        rw [if_pos (law.buffers.backed q b data)] at run
        cases run
    · exact .refl _
  | writeback p stage after =>
    cases stage with
    | opened =>
      refine ⟨rfl, rfl, fun _ _ _ _ => rfl, ?_, ?_, fun c member => ⟨c, member, rfl, rfl⟩⟩
      · intro j differ
        exact update_of_ne differ _ _
      · intro _ _ _
        exact update_self _ _ _
    | writing =>
      apply Effect.refl
      intro _ _ same
      cases same
    | written =>
      cases after with
      | done =>
        have same := Effect.refl (s := s) (i := i) (.writeback p .written .done)
        refine ⟨rfl, rfl, same.buffer, same.others, same.opened, ?_⟩
        intro c member
        obtain ⟨c₀, member₀, equal⟩ := mem_map.mp member
        refine ⟨c₀, member₀, ?_⟩
        rw [← equal]
        split <;> exact ⟨rfl, rfl⟩
      | flush dev j sweep | remove => exact .refl _
  | _ => exact .refl _

/-! ## Marking and writing -/

/-- A step of which only the flag and the pins of one page are new. -/
theorem CallOk.flag {x : Page} {e : Store α} {c : Call α} (ok : s.CallOk disks c)
    (page : w.cache.page = update s.world.cache.page p x)
    (valid : x.valid = (s.page p).valid) (key : x.key = (s.page p).key)
    (data : x.data = (s.page p).data) (buffer : e.buffer = s.buffer)
    (saved : OnDisk disks { e with world := w } c ∨ Flagged { e with world := w } c.key) :
    CallOk disks { e with world := w } c := by
  refine ⟨ok.ready, ?_, saved⟩
  intro q b now keyed there n inside
  change (w.cache.page q).valid = true at now
  change (w.cache.page q).key = c.key at keyed
  change (w.cache.page q).data = some b at there
  change c.seen n <:+ e.buffer b n
  rw [buffer]
  rw [page, update_apply] at now keyed there
  split at now
  · rename_i here
    rw [if_pos here] at keyed there
    exact ok.seen p b (valid.symm.trans now) (key.symm.trans keyed) (data.symm.trans there) n inside
  · rename_i other
    rw [if_neg other] at keyed there
    exact ok.seen q b now keyed there n inside

theorem Law.marked {b : Nat} (law : s.Law disks) (after : w.Law)
    (there : (s.page p).valid = true) (ready : disks.Ready (s.page p).key)
    (page : w.cache.page = update s.world.cache.page p
      { s.world.cache.page p with dirty := true, pin := (s.world.cache.page p).pin + 1 })
    (tasks : w.tasks = s.world.tasks.set i ⟨.writeback p .opened .done, held⟩)
    (data : (s.page p).data = some b)
    (quiet : ∀ (j : Nat) (u : Task) (rest : After), s.world.tasks[j]? = some u →
      u.pc ≠ .writeback p .writing rest) :
    Law disks { s with
      world := w, calls := ⟨i, (s.page p).key, s.buffer b, false⟩ :: s.calls } := by
  have flag : ∀ q, (w.cache.page q).dirty = true ↔ q = p ∨ (s.page q).dirty = true := by
    intro q
    rw [page, update_apply]
    by_cases same : q = p
    · rw [if_pos same]
      exact ⟨fun _ => .inl same, fun _ => rfl⟩
    · rw [if_neg same]
      exact ⟨.inr, fun either => either.resolve_left same⟩
  have kept : ∀ q, (w.cache.page q).valid = (s.page q).valid ∧
      (w.cache.page q).key = (s.page q).key := by
    intro q
    rw [page, update_apply]
    split
    · rename_i here
      rw [here]
      exact ⟨rfl, rfl⟩
    · exact ⟨rfl, rfl⟩
  refine law.carried (e := { s with calls := ⟨i, (s.page p).key, s.buffer b, false⟩ :: s.calls })
    after (fun q _ _ => (kept q).2) ?_ tasks trivial rfl (fun _ _ => rfl) ?_ ?_ ?_ ?_
  · rw [page]
    exact law.sized.update (law.sized p)
  · rintro q stage rest ⟨⟩
    exact ⟨there, ready, nofun⟩
  · intro q now
    rcases (flag q).mp now with rfl | before
    · exact ⟨there, ready⟩
    · exact ⟨(law.world.dirty q before).1, law.dirty q before⟩
  · intro c member
    rcases mem_cons.mp member with new | before
    · subst new
      refine ⟨ready, ?_, .inr ⟨p, (kept p).1.trans there, (kept p).2, (flag p).mpr (.inl rfl)⟩⟩
      intro q b' now key data' n _
      have here := law.page_unique there ((kept q).1.symm.trans now) ((kept q).2.symm.trans key)
      subst here
      have same : some b' = some b := by
        refine data'.symm.trans (Eq.trans ?_ data)
        change (w.cache.page q).data = _
        rw [page, update_self]
        rfl
      cases same
      exact suffix_refl _
    · refine (law.calls c before).flag page rfl rfl rfl rfl ?_
      refine (law.calls c before).saved.imp id ?_
      rintro ⟨q, valid, key, dirty⟩
      exact ⟨q, (kept q).1.trans valid, (kept q).2.trans key, (flag q).mpr (.inr dirty)⟩
  · intro c member
    rcases mem_cons.mp member with new | before
    · subst new
      refine .inr fun j u q rest at_j key writing => ?_
      have here := law.page_unique there (law.world.window at_j writing) key
      exact quiet j u rest at_j (here ▸ writing)
    · exact .inl ⟨c, before, rfl, rfl⟩

theorem Law.cleared {rest : After} (law : s.Law disks)
    (at_i : s.world.tasks[i]? = some ⟨.writeback p .writing rest, held⟩) (after : w.Law)
    (done : s.loopDone disks i p = true)
    (equal : w = (s.world.setCache (s.world.cache.writeback p)).setTask i
      ⟨.writeback p .written rest, held⟩) :
    Law disks { s with world := w } := by
  have ready := law.windows i _ p _ _ at_i rfl
  have page : w.cache.page = update s.world.cache.page p
      { s.world.cache.page p with dirty := false } := by
    have cache : w.cache = s.world.cache.writeback p := by rw [equal]; rfl
    rw [cache, Cache.writeback]
    by_cases dirty : (s.world.cache.page p).dirty = true
    · rw [if_pos dirty]
      rfl
    · rw [if_neg dirty, ← Bool.eq_false_iff.mpr dirty, update_eq_self]
  have others : ∀ q, q ≠ p → w.cache.page q = s.page q := by
    intro q other
    rw [page, update_of_ne other]
    rfl
  -- the loop was not left early: the page has a buffer and a device
  have all : disks.sectors (s.page p).key ≤ s.written i := by
    have there := law.world.window at_i rfl
    have data := law.world.data p there
    rw [loopDone, ready.registered, Bool.or_eq_true, Bool.or_eq_true] at done
    rcases done with (no_data | no_device) | all
    · exact absurd (isNone_iff_eq_none.mp no_data) data
    · cases no_device
    · have sized : (s.page p).blockSize = disks.size (s.page p).key.dev :=
        law.sized p (law.world.used p there)
      rw [Disks.sectors, ← sized]
      exact of_decide_eq_true all
  have tasks : w.tasks = s.world.tasks.set i ⟨.writeback p .written rest, held⟩ := by
    rw [equal]
    rfl
  refine law.carried after ?_ ?_ tasks trivial rfl (fun _ _ => rfl)
    ?_ ?_ ?_ fun c member => .inl ⟨c, member, rfl, rfl⟩
  · intro q _ _
    rw [page, update_apply]
    split
    · rename_i here
      rw [here]
      rfl
    · rfl
  · rw [page]
    exact law.sized.update (law.sized p)
  · rintro q stage rest ⟨⟩
    exact ⟨law.world.window at_i rfl, ready, by simp⟩
  · intro q now
    have other : q ≠ p := by
      rintro rfl
      rw [page, update_self] at now
      cases now
    rw [others q other] at now
    exact ⟨(law.world.dirty q now).1, law.dirty q now⟩
  · intro c member
    refine (law.calls c member).flag page rfl rfl rfl rfl ?_
    rcases (law.calls c member).saved with on_disk | ⟨q, valid, key, dirty⟩
    · exact .inl on_disk
    · by_cases here : q = p
      · subst here
        refine .inl fun n inside => ?_
        have below : n < s.written i := by
          rw [← key] at inside
          omega
        exact law.writing i _ q rest at_i rfl c member key.symm n below inside
      · exact .inr ⟨q, by rw [Store.page, others q here]; exact ⟨valid, key, dirty⟩⟩

theorem Law.sector {b : Nat} {rest : After} (law : s.Law disks)
    (at_i : s.world.tasks[i]? = some ⟨.writeback p .writing rest, held⟩)
    (inside : s.written i < (s.page p).sectors) (data : (s.page p).data = some b) :
    (s.writeNext i p b).Law disks := by
  have ready := law.windows i _ p _ _ at_i rfl
  have there := law.world.window at_i rfl
  have sized : (s.page p).blockSize = disks.size (s.page p).key.dev :=
    law.sized p (law.world.used p there)
  rw [Page.sectors, sized] at inside
  -- a sector that is marked and on the disk stays so
  have stays : ∀ c ∈ s.calls, ∀ n, n < disks.sectors c.key →
      c.seen n <:+ s.block disks c.key n →
        c.seen n <:+ (s.writeNext i p b).block disks c.key n := by
    intro c member n below before
    change c.seen n <:+ update s.disk (s.page p).key.dev _ _ _
    by_cases dev : c.key.dev = (s.page p).key.dev
    · rw [update_apply, if_pos dev, update_apply]
      split
      · rename_i lba
        -- the same sector of the same block
        rw [Page.lba, sized] at lba
        obtain ⟨key, number⟩ := (law.calls c member).ready.apart ready dev below inside lba
        rw [← number]
        exact (law.calls c member).seen p b there key.symm data n below
      · rw [← dev]
        exact before
    · rw [update_of_ne dev]
      exact before
  have now : ∀ c ∈ s.calls, c.key = (s.page p).key → c.seen (s.written i) <:+
      (s.writeNext i p b).block disks c.key (s.written i) := by
    intro c member key
    change _ <:+ update s.disk (s.page p).key.dev (update _ (lbaOf _ _ _) _) _ _
    rw [key, update_self, sized, update_self]
    refine (law.calls c member).seen p b there key.symm data _ ?_
    rw [key]
    exact inside
  refine ⟨law.world, law.sized, law.missed, law.dirty, law.windows, ?_, ?_⟩
  · intro c member
    obtain ⟨ok, contained, saved⟩ := law.calls c member
    refine ⟨ok, contained, saved.imp_left ?_⟩
    intro on_disk n below
    exact stays c member n below (on_disk n below)
  · intro j u q after_q at_j pc_j c member key n below within
    change n < update s.written i (s.written i + 1) j at below
    have old : n < s.written j → c.seen n <:+ (s.writeNext i p b).block disks c.key n :=
      fun before => stays c member n within
        (law.writing j u q after_q at_j pc_j c member key n before within)
    by_cases same : j = i
    · subst same
      rw [update_self] at below
      have pc_same : q = p := by
        change s.world.tasks[j]? = some u at at_j
        rw [at_i] at at_j
        rw [← some.inj at_j] at pc_j
        cases pc_j
        rfl
      subst pc_same
      rcases Nat.lt_succ_iff_lt_or_eq.mp below with before | last
      · exact old before
      · rw [last]
        exact now c member key
    · rw [update_of_ne same] at below
      exact old below

theorem Law.modified {x n : Nat} (law : s.Law disks) (a : α) :
    Law disks { s with
      buffer := update s.buffer x (update (s.buffer x) n (a :: s.buffer x n)) } := by
  refine ⟨law.world, law.sized, law.missed, law.dirty, law.windows, ?_, law.writing⟩
  intro c member
  obtain ⟨ok, contained, saved⟩ := law.calls c member
  refine ⟨ok, ?_, saved⟩
  intro q b valid key data m inside
  have before := contained q b valid key data m inside
  dsimp only
  rw [update_apply]
  split
  · rename_i same
    subst same
    rw [update_apply]
    split
    · rename_i here
      subst here
      exact before.trans (suffix_cons a _)
    · exact before
  · exact before

/-! ## Runs -/

/-- The task is in the loop that writes the page. -/
def inLoop (p : Nat) : Pc → Bool
  | .writeback q .writing _ => q = p
  | _ => false

/-- The buffer of the page has what the disk has. -/
def Fresh (disks : Disks) (s : Store α) (k : Key) (p : Nat) : Prop :=
  ∀ b ∈ (s.page p).data, ∀ n, n < disks.sectors k → s.buffer b n = s.block disks k n

/-- A page is marked only while no task is in the loop that writes it, and only if its
block has sectors of its own on a device that is there. A page that is read in is put into the
cache only if the disk still has what was read. -/
def Settled (disks : Disks) (s : Store α) (a : Nat × Act α) : Prop :=
  match a.2 with
  | .op (.markDirty k) => disks.Ready k ∧
    match s.world.cache.hashFind k with
    | some (some p) => ∀ t ∈ s.world.tasks, inLoop p t.pc = false
    | _ => True
  | .op (.go _) =>
    match (s.world.tasks[a.1]?).map Task.pc with
    | some (.filled k p) => s.world.cache.hashFind k = some none → s.Fresh disks k p
    | _ => True
  | _ => True

instance (k : Key) : Decidable (disks.Ready k) :=
  decidable_of_iff (disks.registered k.dev = true ∧
      k.blockNo.toNat * sectorsOf (disks.size k.dev) + sectorsOf (disks.size k.dev) ≤ 2 ^ 32)
    ⟨fun both => ⟨both.1, both.2⟩, fun ready => ⟨ready.1, ready.2⟩⟩

instance [DecidableEq α] (s : Store α) (k : Key) (p : Nat) : Decidable (s.Fresh disks k p) :=
  inferInstanceAs (Decidable (∀ b ∈ (s.page p).data, ∀ n, n < disks.sectors k →
    s.buffer b n = s.block disks k n))

instance [DecidableEq α] (s : Store α) (a : Nat × Act α) : Decidable (s.Settled disks a) := by
  unfold Settled
  split
  · refine @instDecidableAnd _ _ _ ?_
    split <;> infer_instance
  · split <;> infer_instance
  · infer_instance

theorem step_law {act : Act α} {s' : Store α} (law : s.Law disks) (guard : s.Settled disks (i, act))
    (run : s.step disks i act = some s') : s'.Law disks := by
  obtain ⟨⟨pc, held⟩, at_i, moved⟩ := bind_eq_some_iff.mp run
  cases act with
  | modify k n a =>
    dsimp only at moved
    split at moved
    · obtain ⟨x, _, equal⟩ := map_eq_some_iff.mp moved
      rw [← equal]
      exact law.modified a
    · cases moved
  | sector =>
    dsimp only at moved
    split at moved
    · rename_i p rest
      split at moved
      · cases moved
      rename_i not_done
      obtain ⟨b, data, equal⟩ := map_eq_some_iff.mp moved
      rw [← equal]
      refine law.sector at_i ?_ data
      simp only [loopDone, Bool.or_eq_true, decide_eq_true_eq, not_or, Nat.not_le] at not_done
      exact not_done.2
    · cases moved
  | op op =>
    dsimp only at moved
    split at moved
    · rename_i permitted
      obtain ⟨w, based, equal⟩ := map_eq_some_iff.mp moved
      rw [← equal]
      have after := World.step_law law.world based
      obtain ⟨⟨pc₁, held₁⟩, at_i', result⟩ := bind_eq_some_iff.mp based
      rw [at_i] at at_i'
      cases at_i'
      -- a call that marks nothing
      have called : ∀ op, (∀ k, op ≠ .markDirty k) → s.allowed disks i ⟨pc, held⟩ op = true →
          (s.effect disks i ⟨pc, held⟩ op = s) →
          (if pc = .idle then s.world.call i ⟨pc, held⟩ op else none) = some w →
          Law disks { s.effect disks i ⟨pc, held⟩ op with world := w } := by
        intro op not_mark permitted same result
        split at result
        · rename_i idle
          subst idle
          rw [same]
          have turn : Turn disks.size s.world w i op .idle held :=
            call_turn law.world at_i result not_mark
          refine law.turn at_i (.refl _) turn after ?_ ?_
          · rintro k n rfl
            exact of_decide_eq_true permitted
          · intro q b invalid valid
            cases (turn.fresh q invalid valid).1
        · cases result
      cases op with
      | go buffer =>
        by_cases writing : ∃ p rest, pc = .writeback p .writing rest
        · obtain ⟨p, rest, rfl⟩ := writing
          exact law.cleared at_i after permitted (some.inj result).symm
        have not_writing : ∀ p rest, pc ≠ .writeback p .writing rest :=
          fun p rest same => writing ⟨p, rest, same⟩
        have turn : Turn disks.size s.world w i (.go buffer) pc held :=
          go_turn law.world at_i result not_writing
        refine law.turn at_i (go_effect law.world at_i result) turn after (by simp) ?_
        intro q b invalid valid data ready n inside
        obtain ⟨filled, missing, same⟩ := turn.fresh q invalid valid
        change match (s.world.tasks[i]?).map Task.pc with
          | some (.filled k p) => _ | _ => _ at guard
        rw [at_i, map_some, filled] at guard
        subst filled
        exact guard missing b (same.symm.trans data) n inside
      | markDirty k =>
        obtain ⟨ready, quiet⟩ := guard
        dsimp only at result
        split at result
        · rename_i idle
          subst idle
          rcases markDirty_run law.world result with ⟨missing, same⟩ |
            ⟨p, found, there, key, page, tasks⟩
          · have nothing : s.effect disks i ⟨.idle, held⟩ (.markDirty k) = s := by
              rw [effect.eq_def]
              dsimp only
              rw [missing]
            rw [nothing, same]
            exact law
          · obtain ⟨b, data⟩ := ne_none_iff_exists'.mp (law.world.data p there)
            have call : s.effect disks i ⟨.idle, held⟩ (.markDirty k) =
                { s with calls := ⟨i, (s.page p).key, s.buffer b, false⟩ :: s.calls } := by
              rw [effect.eq_def]
              dsimp only
              rw [found]
              dsimp only
              rw [show (s.page p).data = some b from data, show (s.page p).key = k from key]
            rw [call]
            refine law.marked after there ?_ page tasks data ?_
            · rw [show (s.page p).key = k from key]
              exact ready
            · intro j u rest at_j writing
              rw [found] at quiet
              have outside := quiet u (mem_of_getElem? at_j)
              rw [writing, inLoop, decide_eq_false_iff_not] at outside
              exact outside rfl
        · cases result
      | get k n => exact called (.get k n) (by simp) permitted rfl result
      | put k => exact called (.put k) (by simp) permitted rfl result
      | flushDev dev => exact called (.flushDev dev) (by simp) permitted rfl result
      | invalidateBlock k => exact called (.invalidateBlock k) (by simp) permitted rfl result
      | invalidateDev dev => exact called (.invalidateDev dev) (by simp) permitted rfl result
    · cases moved

theorem start_law (tasks : Nat) (live : Nat → Bool) : (start (α := α) tasks live).Law disks := by
  have idle : ∀ (i : Nat) (t : Task), (start (α := α) tasks live).world.tasks[i]? = some t →
      t.pc = .idle := by
    intro i t at_i
    rw [(mem_replicate.mp (mem_of_getElem? at_i)).2]
  refine ⟨World.start_law tasks live, nofun, ?_, nofun, ?_, nofun, nofun⟩
  · intro i t at_i
    rw [idle i t at_i]
    trivial
  · intro i t p stage after at_i pc
    rw [idle i t at_i] at pc
    cases pc

theorem Reachable.law {tasks : Nat} {live : Nat → Bool} (reached : s.Reachable disks tasks live) :
    s.world.Law := by
  apply invariant (fun s : Store α => s.world.Law) _ _ reached
  · rintro s rfl
    exact World.start_law tasks live
  · rintro s ⟨i, act⟩ s' law run
    obtain ⟨t, -, moved⟩ := bind_eq_some_iff.mp run
    cases act with
    | op op =>
      dsimp only at moved
      split at moved
      · obtain ⟨w, based, rfl⟩ := map_eq_some_iff.mp moved
        exact World.step_law law based
      · cases moved
    | modify k n a =>
      dsimp only at moved
      split at moved
      · obtain ⟨x, -, rfl⟩ := map_eq_some_iff.mp moved
        exact law
      · cases moved
    | sector =>
      dsimp only at moved
      split at moved
      · split at moved
        · cases moved
        · obtain ⟨b, -, rfl⟩ := map_eq_some_iff.mp moved
          exact law
      · cases moved

end Store

end CactKernel.PageCache
