import CactKernel.Memory.Kept
import CactKernel.Memory.Allocator

/-! # Who holds a frame

How each small change moves frames between their owners, as an update of
`World.held`, and what follows for the frames that are held and those that are
free. -/

set_option autoImplicit false

namespace CactKernel.Memory

open Lib Mem Option Function Multiset World

def Pte.held (e : Pte) : Option Nat := if e.holds then some e.frame else none

theorem Pte.held_of_holds {e : Pte} (holds : e.holds = true) : e.held = some e.frame := by
  rw [Pte.held, if_pos holds]

theorem Pte.held_of_not {e : Pte} (holds : e.holds = false) : e.held = none := by
  rw [Pte.held, holds, if_neg (by decide)]

variable {g : Nat}

namespace World

variable {w : World} {m : Mem} {d : DirId} {v i f : Nat} {e old : Pte} {dir : Directory} {o : Owner}
  {rest : Multiset Nat}

theorem held_entry : w.held (.entry d v) = (w.mem.ownPte d v).bind Pte.held := rfl

theorem held_of_own (own : w.mem.ownPte d v = some e) (holds : e.holds = true) :
    w.held (.entry d v) = some e.frame := by
  rw [held_entry, own, bind_some, Pte.held_of_holds holds]

theorem held_hand_iff : w.held o = some f ∧ o = .hand i ↔ o = .hand f ∧ f = i ∧ f ∈ w.hand := by
  constructor
  · rintro ⟨holds, isHand⟩
    rw [isHand, held] at holds
    split at holds
    · rename_i inHand
      cases holds
      exact ⟨isHand, rfl, inHand⟩
    · cases holds
  · rintro ⟨isHand, same, inHand⟩
    subst same
    rw [isHand]
    exact ⟨if_pos inHand, rfl⟩

theorem held_setPte (own : w.mem.ownPte d v = some old) :
    World.held { w with mem := w.mem.setPte d v e } =
      Function.update w.held (.entry d v) e.held := by
  refine eq_update_iff.mpr ⟨?_, fun o here => ?_⟩
  · rw [held_entry, ownPte_setPte own, if_pos ⟨rfl, rfl⟩, bind_some]
  cases o with
  | entry d' v' =>
    have other : ¬ (d' = d ∧ v' = v) := fun ⟨sameDir, samePage⟩ => here (by rw [sameDir, samePage])
    simp only [held, ownPte_setPte own, if_neg other]
  | table d' i => simp only [held, ownTable_setPte own]
  | root d' => simp only [held, root_setPte own]
  | pin x | hand f => rfl

theorem held_take (f : Nat) :
    World.held { w with hand := f ::ₘ w.hand } = Function.update w.held (.hand f) (some f) := by
  refine eq_update_iff.mpr ⟨if_pos (mem_cons_self f w.hand), fun o here => ?_⟩
  cases o with
  | hand g =>
    have other : g ≠ f := fun same => here (by rw [same])
    simp [held, other]
  | _ => rfl

theorem held_drop (distinct : w.hand.Nodup) (inHand : w.hand = f ::ₘ rest) :
    World.held { w with hand := rest } = Function.update w.held (.hand f) none := by
  rw [inHand, nodup_cons] at distinct
  refine eq_update_iff.mpr ⟨if_neg distinct.1, fun o here => ?_⟩
  cases o with
  | hand g =>
    have other : g ≠ f := fun same => here (by rw [same])
    simp [held, inHand, other]
  | _ => rfl

theorem held_of_drop (inHand : w.hand = f ::ₘ rest)
    (holds : World.held { w with hand := rest } o = some g) : w.held o = some g := by
  cases o with
  | hand k =>
    obtain ⟨-, same, inRest⟩ := held_hand_iff.mp ⟨holds, rfl⟩
    refine (held_hand_iff.mpr ⟨by rw [same], same, ?_⟩).1
    rw [inHand]
    exact mem_cons_of_mem inRest
  | _ => exact holds

theorem held_inHand (inHand : w.hand = f ::ₘ rest) : w.held (.hand f) = some f := by
  refine if_pos ?_
  rw [inHand]
  exact mem_cons_self f rest

theorem held_pin (x : Pin) (r : Option Nat) :
    World.held { w with pins := Function.update w.pins x r } =
      Function.update w.held (.pin x) r := by
  refine eq_update_iff.mpr ⟨update_self .., fun o here => ?_⟩
  cases o with
  | pin y =>
    have other : y ≠ x := fun same => here (by rw [same])
    exact update_of_ne other ..
  | _ => rfl

theorem held_openDir (absent : w.mem.dirs d = none) :
    World.held { w with mem := w.mem.putDir d ⟨f, fun _ => kernelPde⟩ } =
      Function.update w.held (.root d) (some f) := by
  refine eq_update_iff.mpr ⟨?_, fun o here => ?_⟩
  · simp [held, root_putDir]
  cases o with
  | entry d' v =>
    simp only [held, ownPte_putDir]
    split
    · rename_i same
      simp [same, ownPte, absent, Directory.ownPte, kernelPde]
    · rfl
  | table d' i =>
    simp only [held, ownTable_putDir]
    split
    · rename_i same
      simp [same, ownTable, absent, Directory.ownTable, kernelPde]
    · rfl
  | root d' =>
    have other : d' ≠ d := fun same => here (by rw [same])
    simp only [held, root_putDir, if_neg other]
  | pin x | hand g => rfl

theorem held_of_dropDir (holds : World.held { w with mem := w.mem.dropDir d } o = some g) :
    w.held o = some g := by
  cases o with
  | entry d' v =>
    simp only [held, ownPte_dropDir] at holds
    split at holds
    · cases holds
    · exact holds
  | table d' i =>
    simp only [held, ownTable_dropDir] at holds
    split at holds
    · cases holds
    · exact holds
  | root d' =>
    simp only [held, root_dropDir] at holds
    split at holds
    · cases holds
    · exact holds
  | pin x | hand k => exact holds

theorem held_closeDir (here : w.mem.dirs d = some dir) (bare : ∀ i, (dir.pde i).table = .kernel) :
    World.held { w with mem := w.mem.dropDir d } = Function.update w.held (.root d) none := by
  refine eq_update_iff.mpr ⟨?_, fun o isRoot => ?_⟩
  · simp [held, root_dropDir]
  cases o with
  | entry d' v =>
    simp only [held, ownPte_dropDir]
    split
    · rename_i same
      simp [same, ownPte, here, Directory.ownPte, bare]
    · rfl
  | table d' i =>
    simp only [held, ownTable_dropDir]
    split
    · rename_i same
      simp [same, ownTable, here, Directory.ownTable, bare]
    · rfl
  | root d' =>
    have other : d' ≠ d := fun same => isRoot (by rw [same])
    simp only [held, root_dropDir, if_neg other]
  | pin x | hand g => rfl

theorem held_reflag {pde : Nat → Pde} (here : w.mem.dirs d = some dir)
    (same : ∀ i, (pde i).table = (dir.pde i).table) :
    World.held { w with mem := w.mem.putDir d { dir with pde } } = w.held := by
  funext o
  cases o with
  | entry d' v =>
    simp only [held, ownPte_putDir, Directory.ownPte_reflag same]
    split
    · rename_i sameDir
      simp [sameDir, ownPte, here]
    · rfl
  | table d' i =>
    simp only [held, ownTable_putDir, Directory.ownTable_reflag same]
    split
    · rename_i sameDir
      simp [sameDir, ownTable, here]
    · rfl
  | root d' =>
    simp only [held, root_putDir]
    split
    · rename_i sameDir
      simp [sameDir, root, here]
    · rfl
  | pin x | hand g => rfl

theorem held_setPde (i : Nat) (p : Pde) (here : w.mem.dirs d = some dir)
    (bareBefore : ∀ f es, (dir.pde i).table = .own f es → ∀ j < 1024, (es j).holds = false)
    (bareAfter : ∀ f es, p.table = .own f es → ∀ j < 1024, (es j).holds = false) :
    World.held { w with mem := w.mem.setPde d i p } =
      Function.update w.held (.table d i) (match p.table with
        | .kernel => none
        | .own f _ => some f) := by
  refine eq_update_iff.mpr ⟨?_, fun o isTable => ?_⟩
  · rw [held, ownTable_setPde here]
    exact if_pos ⟨rfl, rfl⟩
  cases o with
  | entry d' v =>
    simp only [held, ownPte_setPde here]
    split
    · rename_i inside
      have smallIndex : v % 1024 < 1024 := Nat.mod_lt _ (by decide)
      have before : w.held (.entry d' v) = none := by
        rw [held_entry, inside.1]
        simp only [ownPte, here, bind_some, Directory.ownPte, inside.2]
        split
        · rfl
        · rename_i f es table
          exact Pte.held_of_not (bareBefore f es table _ smallIndex)
      rw [held_entry] at before
      refine Eq.trans ?_ before.symm
      split
      · rfl
      · rename_i f es table
        exact Pte.held_of_not (bareAfter f es table _ smallIndex)
    · rfl
  | table d' j =>
    have other : ¬ (d' = d ∧ j = i) := fun same => isTable (by rw [same.1, same.2])
    simp only [held, ownTable_setPde here, if_neg other]
  | root d' => simp only [held, root_setPde here]
  | pin x | hand g => rfl

end World

/-! ## Small changes as trades -/

variable {distinct : Prop} {l : Label} {w w' : World} {held held' : Owner → Option Nat}
  {pm pm' : Pmm}
  {o : Owner} {f : Nat}

/-- The owner gives up its frame. A frame that is in hand twice stays in hand, unless frames are
known to be distinct there. -/
structure Drops (distinct : Prop) (held held' : Owner → Option Nat) (o : Owner) : Prop where
  fewer : ∀ x f, held' x = some f → held x = some f
  exact : distinct → held' = Function.update held o none

theorem ne_of_update {x : Owner} (holds : Function.update held o none x = some f) : x ≠ o := by
  rintro rfl
  rw [update_self] at holds
  cases holds

theorem held_of_update {x : Owner} (holds : Function.update held o none x = some f) :
    held x = some f := by
  rwa [update_of_ne (ne_of_update holds)] at holds

theorem Drops.update : Drops distinct held (Function.update held o none) o :=
  ⟨fun _ _ => held_of_update, fun _ => rfl⟩

/-- What a small change does to the owners and the allocator. -/
inductive Trade (distinct : Prop) (l : Label) (held : Owner → Option Nat) (pm : Pmm) :
    (Owner → Option Nat) → Pmm → Prop
  | take {f : Nat} {pm' : Pmm} (run : pm.kalloc = (some f, pm')) :
      Trade distinct l held pm (Function.update held (.hand f) (some f)) pm'
  | starve {pm' : Pmm} (run : pm.kalloc = (none, pm')) : Trade distinct l held pm held pm'
  | bump (f : Nat) : Trade distinct l held pm held (pm.pageRefInc f)
  | lose {held' : Owner → Option Nat} (fewer : ∀ o f, held' o = some f → held o = some f) :
      Trade distinct l held pm held' pm
  | giveBack {held' : Owner → Option Nat} {o : Owner} {f : Nat} (holder : held o = some f)
      (drops : Drops distinct held held' o) : Trade distinct l held pm held' (pm.freePage f)
  | move {held' : Owner → Option Nat} {f : Nat} (holder : held (.hand f) = some f)
      (drops : Drops distinct held held' (.hand f)) (o : Owner) :
      Trade distinct l held pm (Function.update held' o (some f)) pm
  | share {a o : Owner} {f : Nat} (source : held a = some f) (elsewhere : a ≠ o) :
      Trade distinct l held pm (Function.update held o (some f)) (pm.pageRefInc f)
  | irregular {o : Owner} {f : Nat} (kind : l.kind = .adopt ∨ l.frame = some f) :
      Trade distinct l held pm (Function.update held o (some f)) pm

theorem Trade.keep : Trade distinct l held pm held pm := .lose fun _ _ holds => holds

theorem World.drops_hand {rest : Multiset Nat} (inHand : w.hand = f ::ₘ rest) :
    Drops w.hand.Nodup w.held (World.held { w with hand := rest }) (.hand f) :=
  ⟨fun _ _ => held_of_drop inHand, fun distinct => held_drop distinct inHand⟩

theorem Mem.pmm_setPde (m : Mem) (d : DirId) (i : Nat) (p : Pde) :
    (m.setPde d i p).pmm = m.pmm := by
  unfold setPde
  split
  · rfl
  · rfl

theorem Micro.trade (micro : Micro l w w') (tidy : Tidy w.mem) :
    Trade w.hand.Nodup l w.held w.mem.pmm w'.held w'.mem.pmm := by
  cases micro with
  | @alloc _ f m run =>
    obtain ⟨taken, result⟩ := kalloc_eq run
    subst result
    have after := held_take (w := { w with mem := { w.mem with pmm := w.mem.pmm.kalloc.2 } }) f
    rw [after]
    exact .take (Prod.ext taken rfl)
  | starve run =>
    obtain ⟨failed, result⟩ := kalloc_eq run
    subst result
    exact .starve (Prod.ext failed rfl)
  | fill f bytes => exact .keep
  | bump f => exact .bump f
  | abandon inHand => exact .lose fun _ _ => held_of_drop inHand
  | discard inHand => exact .giveBack (held_inHand inHand) (drops_hand inHand)
  | @pin _ x f rest free inHand =>
    rw [held_pin (w := { w with hand := rest })]
    exact .move (held_inHand inHand) (drops_hand inHand) _
  | @unpin _ x f pinned =>
    have after := held_pin (w := { w with mem := w.mem.freePage f }) x none
    rw [after]
    exact .giveBack (o := .pin x) pinned .update
  | @openDir _ d f rest absent inHand =>
    rw [held_openDir (w := { w with hand := rest }) absent]
    exact .move (held_inHand inHand) (drops_hand inHand) _
  | @closeDir _ d dir here bare =>
    have after := held_closeDir (w := { w with mem := w.mem.freePage dir.frame }) here bare
    rw [after]
    refine .giveBack (o := .root d) ?_ .update
    simp [held, root, here]
  | forget d => exact .lose fun _ _ => held_of_dropDir
  | reflag here same =>
    rw [held_reflag here same]
    exact .keep
  | @privatise _ d dir i f rest user rw here shared low inHand =>
    have bare : ∀ j < 1024, (w.mem.kernel (1024 * i + j)).holds = false := by
      intro j small
      refine (tidy.inert_kernel ?_).1
      unfold pdKernelEntries at low
      unfold totalPages
      omega
    have after := held_setPde (w := { w with hand := rest }) i
      ⟨user, rw, .own f fun j => w.mem.kernel (1024 * i + j)⟩ here
      (fun g es own => by simp [shared] at own) (fun g es own => by cases own; exact bare)
    rw [after]
    rw [pmm_setPde]
    exact .move (held_inHand inHand) (drops_hand inHand) _
  | @fold _ d dir i f entries here own bare =>
    have after := held_setPde i { dir.pde i with table := .kernel } here
      (fun g es same => by rw [own] at same; cases same; exact bare)
      (fun g es same => by cases same)
    have pmm : (mem { w with
        mem := (w.mem.setPde d i { dir.pde i with table := .kernel }).freePage f }).pmm =
        w.mem.pmm.freePage f := congrArg (Pmm.freePage · f) (pmm_setPde ..)
    rw [pmm]
    refine .giveBack (o := .table d i) ?_ ⟨?_, fun _ => after⟩
    · simp [held, ownTable, here, Directory.ownTable, own]
    · intro x g holds
      have held := congrFun after x
      exact held_of_update (held.symm.trans holds)
  | @install _ d v f old fl rest own inHand holds =>
    have after := held_setPte (w := { w with hand := rest }) (e := ⟨f, fl⟩) own
    rw [after, Pte.held_of_holds holds]
    rw [pmm_setPte]
    exact .move (held_inHand inHand) (drops_hand inHand) _
  | @clear _ d v old e own inert =>
    rw [held_setPte own, Pte.held_of_not inert.1]
    rw [pmm_setPte]
    exact .lose fun _ _ => held_of_update
  | @release _ d v old e own holds inert =>
    have after := held_setPte (w := { w with mem := w.mem.freePage old.frame }) (e := e) own
    rw [after, Pte.held_of_not inert.1]
    rw [pmm_setPte]
    exact .giveBack (held_of_own own holds) .update
  | @share _ d v f old fl o own source elsewhere settled notPrivate holds writable =>
    have after := held_setPte (e := ⟨f, fl⟩) own
    rw [Pte.held_of_holds holds] at after
    have pmm : (mem { w with mem := (w.mem.setPte d v ⟨f, fl⟩).pageRefInc f }).pmm =
        w.mem.pmm.pageRefInc f := congrArg (Pmm.pageRefInc · f) pmm_setPte
    rw [pmm]
    have traded : Trade w.hand.Nodup { page := some v } w.held w.mem.pmm
        (update w.held (.entry d v) (some f)) (w.mem.pmm.pageRefInc f) :=
      .share source elsewhere
    rw [← after] at traded
    exact traded
  | @protect _ d v old fl own before holds =>
    have same : update w.held (.entry d v) (some old.frame) = w.held := by
      rw [← held_of_own own before]
      exact update_eq_self _ _
    rw [held_setPte own, Pte.held_of_holds holds]
    rw [pmm_setPte, same]
    exact .keep
  | @adopt _ d v old fl own holds =>
    rw [held_setPte own, Pte.held_of_holds holds]
    rw [pmm_setPte]
    exact .irregular (.inl rfl)
  | @borrow _ d v f old fl own holds =>
    rw [held_setPte own, Pte.held_of_holds holds]
    rw [pmm_setPte]
    exact .irregular (.inr rfl)
  | kernelClear v | kernelBorrow high simple | reshare d pages => exact .keep

/-! ## Where frames come from -/

theorem Pmm.used_of_freePage (free : (pm.freePage f).used g = false) :
    pm.used g = false ∨ g = f := by
  unfold Pmm.freePage at free
  split at free
  · exact .inl free
  split at free
  · exact .inl free
  by_cases same : g = f
  · exact .inr same
  · exact .inl (by simpa [update_of_ne same] using free)

theorem Pmm.used_pageRefInc (pm : Pmm) (f : Nat) : (pm.pageRefInc f).used = pm.used := by
  unfold Pmm.pageRefInc
  split
  · rfl
  split
  · rfl
  · rfl

/-- The frames that are free or held are among the given ones. -/
structure Homed (ram : Nat → Prop) (held : Owner → Option Nat) (pm : Pmm) : Prop where
  free : ∀ f, pm.used f = false → ram f
  held : ∀ o f, held o = some f → ram f

variable {ram : Nat → Prop}

theorem Homed.give (homed : Homed ram held pm) (isRam : ram f) :
    Homed ram (Function.update held o (some f)) pm := by
  refine ⟨homed.free, fun x g holds => ?_⟩
  by_cases here : x = o
  · rw [here, update_self] at holds
    cases holds
    exact isRam
  · rw [update_of_ne here] at holds
    exact homed.held x g holds

theorem Homed.fewer (homed : Homed ram held pm)
    (fewer : ∀ o f, held' o = some f → held o = some f) : Homed ram held' pm :=
  ⟨homed.free, fun o f holds => homed.held o f (fewer o f holds)⟩

theorem Trade.homed (trade : Trade distinct l held pm held' pm')
    (own : l.kind ≠ .adopt) (lent : ∀ f, l.frame = some f → ram f) (homed : Homed ram held pm) :
    Homed ram held' pm' := by
  have free := homed.free
  cases trade with
  | @take f pm' run =>
    obtain ⟨found, result⟩ := Pmm.kalloc_some run
    have wasFree : pm.used f = false := (Pmm.scan_some found).2.2.1
    have taken : Homed ram held pm' := by
      refine ⟨fun g isFree => free g ?_, homed.held⟩
      rw [result] at isFree
      dsimp only at isFree
      by_cases same : g = f
      · rw [same]
        exact wasFree
      · rwa [update_of_ne same] at isFree
    exact taken.give (free f wasFree)
  | starve run =>
    rw [(Pmm.kalloc_none run).2]
    exact ⟨free, homed.held⟩
  | bump f =>
    refine ⟨fun g isFree => ?_, homed.held⟩
    rw [Pmm.used_pageRefInc] at isFree
    exact free g isFree
  | lose fewer => exact homed.fewer fewer
  | @giveBack _ o f holder drops =>
    refine ⟨fun g isFree => ?_, (homed.fewer drops.fewer).held⟩
    rcases Pmm.used_of_freePage isFree with before | same
    · exact free g before
    · rw [same]
      exact homed.held o f holder
  | move holder drops o => exact (homed.fewer drops.fewer).give (homed.held _ _ holder)
  | share source elsewhere =>
    refine ⟨fun g isFree => ?_, (homed.give (homed.held _ _ source)).held⟩
    rw [Pmm.used_pageRefInc] at isFree
    exact free g isFree
  | irregular kind => exact homed.give (lent _ (kind.resolve_left own))

end CactKernel.Memory
