import CactKernel.Memory.Separation

/-! # Owners against reference counts

As long as no count has met its limit, no frame has more owners than its count says,
free frames have none, and a page that only its process may write is the only owner
of its frame. Copy-on-write rests on this. -/

set_option autoImplicit false

namespace CactKernel.Memory

open Lib Mem Option Function Nat Multiset World

variable {distinct : Prop} {l : Label} {w w' : World} {held held' : Owner → Option Nat}
  {pm pm' : Pmm}
  {o : Owner} {f : Nat}

/-! ## The books of the allocator -/

structure Booked (held : Owner → Option Nat) (pm : Pmm) : Prop where
  homed : Homed Pmm.Managed held pm
  covered : Covered held pm.refs
  free : ∀ f, pm.used f = false → Unheld held f

theorem Pmm.freePage_cases (pm : Pmm) (managed : Managed f) :
    (pm.freePage f).refs = update pm.refs f (pm.refs f - 1) ∧
      ((pm.freePage f).used = pm.used ∨ pm.refs f ≤ 1) := by
  unfold Pmm.freePage
  rw [if_neg (not_not.mpr managed)]
  by_cases several : 1 < pm.refs f
  · rw [if_pos several]
    exact ⟨rfl, .inl rfl⟩
  have last : pm.refs f - 1 = 0 := by omega
  rw [if_neg several, last]
  exact ⟨rfl, .inr (by omega)⟩

theorem Pmm.pageRefInc_refs (managed : Managed f) (counted : (pm.pageRefInc f).saturated = false) :
    (pm.pageRefInc f).refs = update pm.refs f (pm.refs f + 1) := by
  obtain ⟨low, reserved, -⟩ := managed
  unfold Pmm.pageRefInc at counted ⊢
  rw [if_neg (by omega)] at counted ⊢
  split at counted
  · rename_i below
    rw [if_pos below]
  · cases counted

theorem Pmm.saturated_of_pageRefInc (counted : (pm.pageRefInc f).saturated = false) :
    pm.saturated = false := by
  unfold Pmm.pageRefInc at counted
  split at counted
  · exact counted
  split at counted
  · exact counted
  · cases counted

theorem Pmm.refs_le_pageRefInc (pm : Pmm) (f g : Nat) : pm.refs g ≤ (pm.pageRefInc f).refs g := by
  unfold Pmm.pageRefInc
  split
  · exact le_refl _
  split
  · dsimp only
    by_cases same : g = f
    · rw [same, update_self]
      exact le_succ _
    · rw [update_of_ne same]
  · exact le_refl _

theorem Pmm.saturated_freePage (pm : Pmm) (f : Nat) : (pm.freePage f).saturated = pm.saturated := by
  unfold Pmm.freePage
  split
  · rfl
  split
  · rfl
  · rfl

theorem unheld_give {g : Nat} (unheld : Unheld held g) (other : g ≠ f) :
    Unheld (update held o (some f)) g := by
  intro x holds
  by_cases here : x = o
  · rw [here, update_self] at holds
    exact other (some.inj holds).symm
  · rw [update_of_ne here] at holds
    exact unheld x holds

namespace Booked

section

variable (booked : Booked held pm)

include booked

theorem give (holder : held (.hand f) = some f) :
    Booked (update (update held (.hand f) none) o (some f)) pm := by
  refine ⟨?_, booked.covered.move holder, fun g isFree => ?_⟩
  · exact (booked.homed.fewer fun _ _ => held_of_update).give (booked.homed.held _ _ holder)
  · have other : g ≠ f := fun same => booked.free g isFree (.hand f) (same ▸ holder)
    refine unheld_give (fun x holds => ?_) other
    exact booked.free g isFree x (held_of_update holds)

theorem take (run : pm.kalloc = (some f, pm')) :
    Booked (update held (.hand f) (some f)) pm' := by
  obtain ⟨found, result⟩ := Pmm.kalloc_some run
  have wasFree : pm.used f = false := (Pmm.scan_some found).2.2.1
  have traded : Trade True {} held pm (update held (.hand f) (some f)) pm' := .take run
  refine ⟨traded.homed nofun nofun booked.homed, ?_, fun g isFree => ?_⟩
  · rw [result]
    exact booked.covered.take (booked.free f wasFree)
  · rw [result] at isFree
    dsimp only at isFree
    have other : g ≠ f := by
      intro same
      rw [same, update_self] at isFree
      cases isFree
    rw [update_of_ne other] at isFree
    exact unheld_give (booked.free g isFree) other

theorem fewer (fewer : ∀ o f, held' o = some f → held o = some f) :
    Booked held' pm :=
  ⟨booked.homed.fewer fewer, booked.covered.mono fewer fun _ => le_refl _,
    fun g isFree x holds => booked.free g isFree x (fewer x g holds)⟩

theorem giveBack (holder : held o = some f) :
    Booked (update held o none) (pm.freePage f) := by
  have traded : Trade True {} held pm (update held o none) (pm.freePage f) :=
    .giveBack holder .update
  obtain ⟨refs, ended⟩ := pm.freePage_cases (booked.homed.held o f holder)
  refine ⟨traded.homed nofun nofun booked.homed, ?_, fun g isFree x holds => ?_⟩
  · rw [refs]
    exact booked.covered.release holder
  · have before := held_of_update holds
    rcases Pmm.used_of_freePage isFree with wasFree | same
    · exact booked.free g wasFree x before
    rw [same] at isFree before
    rcases ended with used | last
    · rw [used] at isFree
      exact booked.free f isFree x before
    have only : x = o := booked.covered.sole last before holder
    rw [only, update_self] at holds
    cases holds

theorem share {a : Owner} (source : held a = some f)
    (counted : (pm.pageRefInc f).saturated = false) :
    Booked (update held o (some f)) (pm.pageRefInc f) := by
  have managed := booked.homed.held a f source
  refine ⟨⟨fun g isFree => ?_, (booked.homed.give managed).held⟩, ?_, fun g isFree => ?_⟩
  · rw [Pmm.used_pageRefInc] at isFree
    exact booked.homed.free g isFree
  · rw [Pmm.pageRefInc_refs managed counted]
    exact booked.covered.share
  · rw [Pmm.used_pageRefInc] at isFree
    have other : g ≠ f := fun same => booked.free g isFree a (same ▸ source)
    exact unheld_give (booked.free g isFree) other

end

end Booked

theorem Trade.counted (trade : Trade distinct l held pm held' pm')
    (counted : pm'.saturated = false) :
    pm.saturated = false := by
  cases trade with
  | take run =>
    rw [(Pmm.kalloc_some run).2] at counted
    exact counted
  | starve run =>
    rw [(Pmm.kalloc_none run).2] at counted
    exact counted
  | bump f | share source elsewhere => exact Pmm.saturated_of_pageRefInc counted
  | lose fewer | move holder drops o | irregular kind => exact counted
  | giveBack holder drops => rwa [Pmm.saturated_freePage] at counted

theorem Trade.booked (trade : Trade distinct l held pm held' pm') (isDistinct : distinct)
    (own : l.kind ≠ .adopt) (counting : l.frame = none) (counted : pm'.saturated = false)
    (booked : Booked held pm) : Booked held' pm' := by
  cases trade with
  | take run => exact booked.take run
  | starve run =>
    rw [(Pmm.kalloc_none run).2]
    exact ⟨⟨booked.homed.free, booked.homed.held⟩, booked.covered, booked.free⟩
  | bump f =>
    refine ⟨⟨fun g isFree => ?_, booked.homed.held⟩, ?_, fun g isFree => ?_⟩
    · rw [Pmm.used_pageRefInc] at isFree
      exact booked.homed.free g isFree
    · exact booked.covered.mono (fun _ _ holds => holds) (pm.refs_le_pageRefInc f)
    · rw [Pmm.used_pageRefInc] at isFree
      exact booked.free g isFree
  | lose fewer => exact booked.fewer fewer
  | giveBack holder drops =>
    rw [drops.exact isDistinct]
    exact booked.giveBack holder
  | move holder drops o =>
    rw [drops.exact isDistinct]
    exact booked.give holder
  | share source elsewhere => exact booked.share source counted
  | irregular kind =>
    rcases kind with adopts | lent
    · exact absurd adopts own
    · rw [counting] at lent
      cases lent

/-! ## The ledger -/

/-- Owners that must be the only ones: pages that only their process may write, and frames that
the code has taken and not yet placed. -/
def World.Guarded (w : World) (o : Owner) : Prop := w.Private o ∨ ∃ f, o = .hand f

structure Ledger (w : World) : Prop where
  tidy : Tidy w.mem
  kernel : ∀ v, (w.mem.kernel v).holds = false
  booked : Booked w.held w.mem.pmm
  distinct : w.hand.Nodup
  exclusive : Exclusive w.Guarded w.held

namespace World

variable {m : Mem} {d : DirId} {v i : Nat} {e old : Pte} {dir : Directory} {rest : Multiset Nat}

variable {x : Owner}

theorem guarded_of_entries (guarded : w'.Guarded x)
    (same : ∀ d v e, x = .entry d v → w'.mem.ownPte d v = some e → e.flags.rw = true →
      ¬ w'.shared d v → w.mem.ownPte d v = some e ∧ ¬ w.shared d v) : w.Guarded x := by
  refine guarded.imp (fun ⟨d, v, e, isEntry, own, writable, notShared⟩ => ?_) id
  obtain ⟨before, notShared⟩ := same d v e isEntry own writable notShared
  exact ⟨d, v, e, isEntry, before, writable, notShared⟩

theorem guarded_of_setPte (own : w.mem.ownPte d v = some old) (other : x ≠ .entry d v)
    (guarded : World.Guarded { w with mem := w.mem.setPte d v e } x) : w.Guarded x := by
  refine guarded.imp (fun ⟨d', v', e', isEntry, entry, writable, notShared⟩ => ?_) id
  rw [ownPte_setPte own,
    if_neg fun ⟨sameDir, samePage⟩ => other (by rw [isEntry, sameDir, samePage])]
    at entry
  exact ⟨d', v', e', isEntry, entry, writable, notShared⟩

theorem unheld_of_hand (exclusive : Exclusive w.Guarded w.held) (inHand : w.hand = f ::ₘ rest) :
    Unheld (update w.held (.hand f) none) f := by
  intro x holds
  have only := exclusive (.hand f) x f (.inr ⟨f, rfl⟩) (held_inHand inHand) (held_of_update holds)
  rw [only, update_self] at holds
  cases holds

end World

namespace Ledger

theorem place {rest : Multiset Nat} (ledger : Ledger w) (inHand : w.hand = f ::ₘ rest)
    (after : w'.held = update (World.held { w with hand := rest }) o (some f))
    (still : ∀ x g, x ≠ o → w'.Guarded x → w'.held x = some g → w.Guarded x) :
    Exclusive w'.Guarded w'.held := by
  rw [held_drop ledger.distinct inHand] at after
  have dropped : Exclusive w.Guarded (update w.held (.hand f) none) :=
    ledger.exclusive.fewer (fun _ _ => held_of_update) fun _ _ guarded _ => guarded
  rw [after] at still ⊢
  refine dropped.take (unheld_of_hand ledger.exclusive inHand) fun x g other guarded holds => ?_
  exact still x g other guarded ((update_of_ne other ..).trans holds)

end Ledger

theorem Pte.holds_of_held {e : Pte} (held : e.held = some f) : e.holds = true := by
  by_contra not
  rw [Pte.held_of_not (by simpa using not)] at held
  cases held

/-- Rights of a page change: the new right is the page's alone, or nobody else's is in danger. -/
theorem Ledger.protect {d : DirId} {v : Nat} {old : Pte} {fl : Flags} (ledger : Ledger w)
    (own : w.mem.ownPte d v = some old) (before : old.holds = true)
    (holds : (Pte.mk old.frame fl).holds = true)
    (fair : fl.rw = true → old.flags.rw = true ∨ w.mem.pmm.refs old.frame = 1 ∨ w.shared d v) :
    Exclusive (World.Guarded { w with mem := w.mem.setPte d v ⟨old.frame, fl⟩ })
      (World.held { w with mem := w.mem.setPte d v ⟨old.frame, fl⟩ }) := by
  have isHeld := held_of_own own before
  have same : held { w with mem := w.mem.setPte d v ⟨old.frame, fl⟩ } = w.held := by
    rw [held_setPte own, Pte.held_of_holds holds, ← isHeld]
    exact update_eq_self _ _
  rw [same]
  intro o a f guarded first second
  by_cases here : o = .entry d v
  · rw [here] at first ⊢
    rw [isHeld] at first
    cases first
    rcases guarded with ⟨d', v', e, isEntry, entry, writable, notShared⟩ | ⟨g, isHand⟩
    · cases here.symm.trans isEntry
      rw [ownPte_setPte own, if_pos ⟨rfl, rfl⟩] at entry
      cases entry
      rcases fair writable with wasWritable | single | isShared
      · have guardedBefore : w.Guarded (.entry d v) :=
          .inl ⟨d, v, old, rfl, own, wasWritable, notShared⟩
        exact ledger.exclusive _ a _ guardedBefore isHeld second
      · exact ledger.booked.covered.sole (le_of_eq single) second isHeld
      · exact absurd isShared notShared
    · cases here.symm.trans isHand
  · exact ledger.exclusive o a f (guarded_of_setPte own here guarded) first second

theorem Micro.ledger_exclusive (micro : Micro l w w') (plain : l.kind = .plain)
    (ledger : Ledger w) :
    Exclusive w'.Guarded w'.held := by
  have exclusive := ledger.exclusive
  have still : (∀ v, l.page ≠ some v) → w'.shared = w.shared →
      ∀ x g, w'.Guarded x → w'.held x = some g → w.Guarded x := by
    intro noPage same x g guarded holds
    refine guarded_of_entries guarded fun d v e isEntry own _ notShared => ⟨?_, same ▸ notShared⟩
    rcases micro.entries.own d v e own with before | ⟨page, -⟩ | ⟨-, rfl⟩
    · exact before
    · exact absurd page (noPage v)
    · rw [isEntry, held_entry, own, bind_some, Pte.held_of_not (ledger.kernel v)] at holds
      cases holds
  cases micro with
  | @alloc _ f m run =>
    have wasFree := (kalloc_unused run).1
    obtain ⟨-, result⟩ := kalloc_eq run
    subst result
    have after := held_take (w := { w with mem := { w.mem with pmm := w.mem.pmm.kalloc.2 } }) f
    rw [after]
    exact exclusive.take (ledger.booked.free f wasFree) fun _ _ _ guarded _ => guarded
  | starve run =>
    obtain ⟨-, result⟩ := kalloc_eq run
    subst result
    exact exclusive
  | fill f bytes | bump f => exact exclusive
  | @abandon _ f rest inHand | @discard _ f rest inHand =>
    exact exclusive.fewer (fun _ _ => held_of_drop inHand) fun _ _ guarded _ => guarded
  | @pin _ x f rest free inHand =>
    exact ledger.place inHand (held_pin (w := { w with hand := rest }) x (some f))
      fun _ _ _ guarded _ => guarded
  | @unpin _ x f pinned =>
    have after := held_pin (w := { w with mem := w.mem.freePage f }) x none
    rw [after]
    exact exclusive.fewer (fun _ _ => held_of_update) fun _ _ guarded _ => guarded
  | @openDir _ d f rest absent inHand =>
    exact ledger.place inHand (held_openDir (w := { w with hand := rest }) absent)
      fun x g _ => still nofun rfl x g
  | @closeDir _ d dir here bare | forget d =>
    exact exclusive.fewer (fun _ _ => held_of_dropDir) (still nofun rfl)
  | @reflag _ d dir pde here same =>
    exact exclusive.fewer (fun _ _ holds => (congrFun (held_reflag here same) _).symm.trans holds)
      (still nofun rfl)
  | @privatise _ d dir i f rest user rw here shared low inHand =>
    have bare : ∀ j < 1024, (w.mem.kernel (1024 * i + j)).holds = false :=
      fun j _ => ledger.kernel (1024 * i + j)
    exact ledger.place inHand (held_setPde (w := { w with hand := rest }) i
      ⟨user, rw, .own f fun j => w.mem.kernel (1024 * i + j)⟩ here
      (fun g es own => by simp [shared] at own)
      (fun g es own => by cases own; exact bare)) fun x g _ => still nofun rfl x g
  | @fold _ d dir i f entries here own bare =>
    have after := held_setPde i { dir.pde i with table := .kernel } here
      (fun g es same => by rw [own] at same; cases same; exact bare)
      (fun g es same => by cases same)
    refine exclusive.fewer (fun x g holds => ?_) (still nofun rfl)
    exact held_of_update ((congrFun after x).symm.trans holds)
  | @install _ d v f old fl rest own inHand holds =>
    have after := held_setPte (w := { w with hand := rest }) (e := ⟨f, fl⟩) own
    rw [Pte.held_of_holds holds] at after
    refine ledger.place inHand after fun x g other guarded _ => ?_
    exact guarded_of_setPte (w := w) own other guarded
  | @clear _ d v old e own inert =>
    rw [held_setPte own, Pte.held_of_not inert.1]
    exact exclusive.fewer (fun _ _ => held_of_update) fun x g guarded holds =>
      guarded_of_setPte own (ne_of_update holds) guarded
  | @release _ d v old e own holds inert =>
    have after := held_setPte (w := { w with mem := w.mem.freePage old.frame }) (e := e) own
    rw [after, Pte.held_of_not inert.1]
    exact exclusive.fewer (fun _ _ => held_of_update) fun x g guarded holds =>
      guarded_of_setPte (w := { w with mem := w.mem.freePage old.frame }) own
        (ne_of_update holds) guarded
  | @share _ d v f old fl o own source elsewhere settled notPrivate holds writable =>
    have after := held_setPte (e := ⟨f, fl⟩) own
    rw [Pte.held_of_holds holds] at after
    have shared : Exclusive (World.Guarded { w with mem := w.mem.setPte d v ⟨f, fl⟩ })
        (held { w with mem := w.mem.setPte d v ⟨f, fl⟩ }) := by
      rw [after]
      refine exclusive.share source ?_ ?_ ?_
      · rintro (isPrivate | ⟨g, isHand⟩)
        · exact notPrivate isPrivate
        · exact settled g isHand
      · exact fun x g other guarded _ => guarded_of_setPte own other guarded
      · rintro (⟨d', v', e, isEntry, entry, isWritable, notShared⟩ | ⟨g, isHand⟩)
        · cases isEntry
          rw [ownPte_setPte own, if_pos ⟨rfl, rfl⟩] at entry
          cases entry
          exact notShared (writable isWritable)
        · cases isHand
    exact shared
  | @protect _ d v old fl own before holds =>
    refine ledger.protect own before holds ?_
    by_contra unfair
    rw [if_neg unfair] at plain
    cases plain
  | @adopt _ d v old fl own holds | @borrow _ d v f old fl own holds => cases plain
  | kernelClear v | kernelBorrow high simple => exact exclusive
  | reshare d pages =>
    refine exclusive.fewer (fun _ _ holds => holds) fun x g guarded holds => ?_
    refine guarded_of_entries guarded fun d' v e isEntry own writable notShared => ⟨own, ?_⟩
    intro wasShared
    dsimp only at notShared plain
    by_cases here : d' = d
    · subst here
      rw [update_self] at notShared
      split at plain
      · rename_i readOnly
        have isHeld : e.held = some g := by
          rw [isEntry] at holds
          rw [held_entry] at holds
          dsimp only at holds
          rw [own, bind_some] at holds
          exact holds
        have notWritable := readOnly v e wasShared notShared own (Pte.holds_of_held isHeld)
        rw [notWritable] at writable
        cases writable
      · cases plain
    · rw [update_of_ne here] at notShared
      exact notShared wasShared

theorem Micro.ledger_hand (micro : Micro l w w') (ledger : Ledger w) : w'.hand.Nodup := by
  have distinct := ledger.distinct
  have rest : ∀ {f rest}, w.hand = f ::ₘ rest → rest.Nodup := by
    intro f rest inHand
    rw [inHand] at distinct
    exact (nodup_cons.mp distinct).2
  cases micro with
  | @alloc _ f m run =>
    refine nodup_cons.mpr ⟨fun inHand => ?_, distinct⟩
    exact ledger.booked.free f (kalloc_unused run).1 (.hand f) (if_pos inHand)
  | abandon inHand | discard inHand | pin free inHand | openDir absent inHand
  | privatise user rw here shared low inHand | install own inHand holds => exact rest inHand
  | _ => exact distinct

theorem Micro.ledger_kernel (micro : Micro l w w') (plain : l.kind = .plain)
    (bare : ∀ v, (w.mem.kernel v).holds = false) (v : Nat) : (w'.mem.kernel v).holds = false := by
  rcases micro.entries.kernel v with same | ⟨-, -, -, -, unheld⟩
  · rw [same]
    exact bare v
  · exact unheld plain

theorem Micro.frame_none (micro : Micro l w w') (plain : l.kind = .plain) : l.frame = none := by
  cases micro with
  | borrow own holds => cases plain
  | _ => rfl

theorem Micro.ledger (micro : Micro l w w') (plain : l.kind = .plain)
    (counted : w'.mem.pmm.saturated = false) (ledger : Ledger w) : Ledger w' where
  tidy := micro.tidy ledger.tidy
  kernel := micro.ledger_kernel plain ledger.kernel
  booked := by
    refine (micro.trade ledger.tidy).booked ledger.distinct ?_ (micro.frame_none plain) counted
      ledger.booked
    rw [plain]
    nofun
  distinct := micro.ledger_hand ledger
  exclusive := micro.ledger_exclusive plain ledger

/-! ## Copy-on-write -/

namespace Machine

variable {s s' : Machine} {a : Action}

/-- The call makes none of the irregular changes. -/
def Regular (s : Machine) (a : Action) : Prop := s.ForksMine a ∧ ∀ k, ¬ s.irregular a k

/-- The frame of a user page of a process. -/
def userFrame (s : Machine) (p v : Nat) : Option Nat :=
  (s.tasks p).bind fun t => (s.mem.pteAt (p, t.gen) v).held

/-- The page may be written and lies in no `MAP_SHARED` region. -/
def WritesAlone (s : Machine) (p v : Nat) : Prop :=
  ∃ t, s.tasks p = some t ∧ ¬ t.table.Shared v ∧ (s.mem.pteAt (p, t.gen) v).flags.rw = true

/-- The frames of private writable pages are mapped by no other process, and what is stored there
is seen by no other process. -/
def CopyOnWrite (s : Machine) : Prop :=
  (∀ p v q u f, s.WritesAlone p v → s.userFrame p v = some f → q ≠ p → s.userFrame q u ≠ some f) ∧
  ∀ p v offset b s' q u f, (∀ t, s.tasks p = some t → ¬ t.table.Shared v) →
    s.step (.store p v offset b) = some s' → q ≠ p → s.userFrame q u = some f →
    s'.mem.page f = s.mem.page f

variable {p v f q u : Nat}

theorem userFrame_eq : s.userFrame p v = some f ↔
    ∃ t, s.tasks p = some t ∧ (s.mem.pteAt (p, t.gen) v).held = some f := bind_eq_some_iff

theorem held_of_pteAt {d : DirId} (ledger : Ledger s.world)
    (entry : (s.mem.pteAt d v).held = some f) :
    s.mem.ownPte d v = some (s.mem.pteAt d v) ∧ s.world.held (.entry d v) = some f := by
  have own : s.mem.ownPte d v = some (s.mem.pteAt d v) := by
    rcases s.mem.pteAt_cases d v with own | null | kernel
    · exact own
    · rw [null] at entry
      cases entry
    · rw [kernel] at entry
      cases (Pte.held_of_not (ledger.kernel v)).symm.trans entry
  refine ⟨own, ?_⟩
  rw [held_entry]
  change (s.mem.ownPte d v).bind Pte.held = some f
  rw [own]
  exact entry

theorem alone_of_ledger (ledger : Ledger s.world) (alone : s.WritesAlone p v)
    (mine : s.userFrame p v = some f) (other : q ≠ p) : s.userFrame q u ≠ some f := by
  intro theirs
  obtain ⟨t, task, notShared, writable⟩ := alone
  obtain ⟨t', task', entry⟩ := userFrame_eq.mp mine
  rw [task] at task'
  cases task'
  obtain ⟨t'', task'', entry'⟩ := userFrame_eq.mp theirs
  obtain ⟨own, isHeld⟩ := held_of_pteAt ledger entry
  obtain ⟨-, isHeld'⟩ := held_of_pteAt ledger entry'
  have guarded : s.world.Guarded (.entry (p, t.gen) v) :=
    .inl ⟨_, v, _, rfl, own, writable, fun shared => notShared ((shared_of_task task v).mp shared)⟩
  have same := ledger.exclusive _ _ f guarded isHeld isHeld'
  exact other (Prod.mk.inj (Owner.entry.inj same).1).1

theorem store_unseen {offset : Nat} {b : UInt8} (ledger : Ledger s.world)
    (notShared : ∀ t, s.tasks p = some t → ¬ t.table.Shared v)
    (move : s.step (.store p v offset b) = some s') (other : q ≠ p)
    (theirs : s.userFrame q u = some f) : s'.mem.page f = s.mem.page f := by
  rw [step, store] at move
  split at move
  · cases move
  rename_i t task
  split at move
  · rename_i allowed
    have result := (some.inj move).symm
    subst result
    have granted := allowed.2.2
    simp only [permits, userMapped, Bool.and_eq_true, Bool.not_true, Bool.false_or] at granted
    obtain ⟨⟨-, holds⟩, -, writable⟩ := granted
    have mine : s.userFrame p v = some (s.mem.pteAt (p, t.gen) v).frame :=
      userFrame_eq.mpr ⟨t, task, Pte.held_of_holds holds⟩
    have alone : s.WritesAlone p v := ⟨t, task, notShared t task, writable⟩
    have apart : f ≠ (s.mem.pteAt (p, t.gen) v).frame := by
      intro same
      exact alone_of_ledger ledger alone mine other (same ▸ theirs)
    simp only [Mem.store, fill, update_of_ne apart]
  · cases move

theorem ledger_next (good : s.Good) (ledger : s.mem.pmm.saturated = false → Ledger s.world)
    (regular : s.Regular a) (move : s.step a = some s') (counted : s'.mem.pmm.saturated = false) :
    Ledger s'.world := by
  have steps := (step_steps good regular.1 move).1
  have kept : Tidy s'.world.mem ∧ (s'.world.mem.pmm.saturated = false → Ledger s'.world) := by
    refine steps.invariant (fun w => Tidy w.mem ∧ (w.mem.pmm.saturated = false → Ledger w))
      ⟨good.tidy, ledger⟩ ?_
    rintro l w w' within micro ⟨tidy, before⟩
    refine ⟨micro.tidy tidy, fun counted => ?_⟩
    have plain : l.kind = .plain := within.kind.resolve_right (regular.2 l.kind)
    exact micro.ledger plain counted (before ((micro.trade tidy).counted counted))
  exact kept.2 counted

theorem boot_ledger (map : List MmapEntry) (page : Nat → Nat → UInt8) :
    Ledger (boot map page).world where
  tidy := (boot_good map page).tidy
  kernel v := rfl
  booked := by
    refine ⟨⟨fun f free => ?_, fun o f holds => ?_⟩, fun f => ?_, fun f _ o holds => ?_⟩
    · obtain ⟨above, below⟩ := (init_sound map).managed f free
      unfold heapEndPage at above
      exact ⟨below, by unfold reservedPages; omega, by unfold heapEndPage; omega⟩
    · rw [boot_held] at holds
      cases holds
    · have none : {o | (boot map page).world.held o = some f} = ∅ := by
        ext o
        simp [boot_held]
      rw [none, Set.encard_empty]
      exact bot_le
    · rw [boot_held] at holds
      cases holds
  distinct := nodup_zero
  exclusive := by
    intro o a f _ holds
    rw [boot_held] at holds
    cases holds

theorem copy_on_write (run : Reach Booted (restrict Regular Step) s)
    (counted : s.mem.pmm.saturated = false) : s.CopyOnWrite := by
  have kept : s.Good ∧ (s.mem.pmm.saturated = false → Ledger s.world) := by
    refine run.invariant (fun s => s.Good ∧ (s.mem.pmm.saturated = false → Ledger s.world)) ?_ ?_
    · rintro s ⟨map, page, isBoot⟩
      rw [isBoot]
      exact ⟨boot_good map page, fun _ => boot_ledger map page⟩
    · rintro s a s' ⟨good, ledger⟩ ⟨regular, move⟩
      exact ⟨(step_steps good regular.1 move).2, ledger_next good ledger regular move⟩
  have ledger := kept.2 counted
  exact ⟨fun p v q u f alone mine other => alone_of_ledger ledger alone mine other,
    fun p v offset b s' q u f notShared move other theirs =>
      store_unseen ledger notShared move other theirs⟩

theorem copy_on_write_two :
    ∃ s : Machine, (s.tasks 1).isSome = true ∧ (s.tasks 2).isSome = true ∧ s.CopyOnWrite := by
  obtain ⟨two, run, oneLive, twoLive, counted⟩ := exists_of_any
    (((boot [] fun _ _ => 0).step (.spawn 1 (sampleImage 0x08048000))).bind
      (·.step (.spawn 2 (sampleImage 0x08048000)))) (fun s => (s.tasks 1).isSome = true ∧
        (s.tasks 2).isSome = true ∧ s.mem.pmm.saturated = false) (by decide +kernel)
  obtain ⟨one, first, second⟩ := bind_eq_some_iff.mp run
  have regular : ∀ (s : Machine) p, s.Regular (.spawn p (sampleImage 0x08048000)) := by
    refine fun s p => ⟨trivial, ?_⟩
    rintro k ⟨-, v, high, taken⟩
    exact absurd (sample_inside taken).2 (not_lt.mpr high)
  have reached : Reach Booted (restrict Regular Step) two :=
    .next (.next (.start ⟨_, _, rfl⟩) ⟨regular _ 1, first⟩) ⟨regular _ 2, second⟩
  exact ⟨two, oneLive, twoLive, copy_on_write reached counted⟩

/-- A mapping below the frame that the next process gets; the rights are given to both pages. -/
def takesNextFrame : List Action :=
  [.spawn 2 (sampleImage 0x08048000),
    .mmap 2 { hint := 0x3011000, length := 4096, priv := true, fixed := true, anon := true },
    .mprotect 2 0x3011000 8192 true]

theorem table_of_spawn {img : Image} (run : s.spawn p img = some s') :
    ∃ t, s'.tasks p = some t ∧ t.table = {} := by
  rw [spawn] at run
  repeat' split at run
  all_goals cases run
  all_goals exact ⟨_, update_self .., rfl⟩

/-- `mprotect` goes on behind the region, into the kernel's pages of frames that are free: the
next process and the one before write to the same frame. -/
theorem protected_page_shared : ∃ s : Machine, Reach Booted Step s ∧
    s.mem.pmm.saturated = false ∧ ¬ s.CopyOnWrite := by
  obtain ⟨s', run, rights, mine, theirs, counted⟩ := exists_of_any
    ((takesNextFrame.foldlM step (boot [] fun _ _ => 0)).bind
      (·.spawn 1 (sampleImage 0x08048000))) (fun s =>
        ((s.tasks 1).map fun t => (s.mem.pteAt (1, t.gen) 0x8048).flags.rw) = some true ∧
        s.userFrame 1 0x8048 = some 0x3012 ∧ s.userFrame 2 0x3012 = some 0x3012 ∧
        s.mem.pmm.saturated = false) (by decide +kernel)
  obtain ⟨s, before, spawned⟩ := bind_eq_some_iff.mp run
  obtain ⟨t, task, table⟩ := table_of_spawn spawned
  rw [task, map_some, some.injEq] at rights
  have reached : Reach Booted Step s :=
    Reach.of_foldlM (fun _ _ _ move => move) _ (.start ⟨_, _, rfl⟩) before
  refine ⟨s', .next (a := .spawn 1 (sampleImage 0x08048000)) reached spawned, counted, ?_⟩
  rintro ⟨alone, -⟩
  refine alone 1 0x8048 2 0x3012 0x3012 ⟨t, task, ?_, rights⟩ mine (by decide) theirs
  rintro ⟨i, shared, -⟩
  rw [table] at shared
  cases shared

end Machine

end CactKernel.Memory
