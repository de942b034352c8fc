import CactKernel.Memory.Swap
import CactKernel.Memory.Chains

/-! # What leaves swapped-out entries alone

An eviction makes a swapped-out entry and a fault turns one back; every other
function must leave them alone. `Still` says so for the memory functions, each
under what it needs to know about the entry that it writes. -/

set_option autoImplicit false

namespace CactKernel.Memory

open Lib List

variable {m m' m'' : Mem} {d c : DirId} {v i : Nat} {e : Pte}

variable {f : Nat} {fl : Flags} {ok rw user : Bool} {pte : Pte} {x y : Vm}

@[simp] theorem Pte.slot_present (present : fl.present = true) : (⟨f, fl⟩ : Pte).slot = none := by
  simp [Pte.slot, present]

@[simp] theorem Pte.slot_null : Pte.null.slot = none := rfl

theorem Pte.slot_of_holds (holds : e.holds = true) : e.slot = none := by
  have present := Pte.holds_present holds
  simp [Pte.slot, present]

/-! ## Functions that leave swapped-out entries alone -/

/-- No entry of the kernel's tables is swapped out. -/
def Mem.KernelClean (m : Mem) : Prop := ∀ v, (m.kernel v).slot = none

structure Still (m m' : Mem) : Prop where
  slots : ∀ d v, m'.slotAt d v = m.slotAt d v
  kernel : m.KernelClean → m'.KernelClean
  live : ∀ d, (m'.root d).isSome = (m.root d).isSome

namespace Still

theorem refl (m : Mem) : Still m m := ⟨fun _ _ => rfl, id, fun _ => rfl⟩

theorem trans (first : Still m m') (second : Still m' m'') : Still m m'' where
  slots d v := (second.slots d v).trans (first.slots d v)
  kernel clean := second.kernel (first.kernel clean)
  live d := (second.live d).trans (first.live d)

theorem of_same (dirs : m'.dirs = m.dirs) (kernel : m'.kernel = m.kernel) : Still m m' where
  slots d v := by simp only [Mem.slotAt, Mem.pteAt, dirs, kernel]
  kernel clean v := by rw [kernel]; exact clean v
  live d := by simp only [Mem.root, dirs]

theorem loop {body : Nat → Mem → Mem} {n : Nat} (inv : Mem → Prop) (start : inv m)
    (kept : ∀ i t, i < n → inv t → Still t (body i t) ∧ inv (body i t)) :
    Still m (countTo body n m) :=
  (countTo_invariant (fun _ t => Still m t ∧ inv t) ⟨refl m, start⟩
    fun i t small before =>
      ⟨before.1.trans (kept i t small before.2).1, (kept i t small before.2).2⟩).1

end Still

theorem setPte_still (old : m.slotAt d v = none) (new : e.slot = none) :
    Still m (m.setPte d v e) := by
  cases own : m.ownPte d v with
  | some prior =>
    refine ⟨fun d' v' => ?_, fun clean => ?_, fun d' => ?_⟩
    · rw [Mem.slotAt, Mem.pteAt_setPte own]
      split
      · rename_i same
        rw [new, same.1, same.2, old]
      · rfl
    · rw [Mem.KernelClean, Mem.kernel_setPte own]
      exact clean
    · rw [Mem.root_setPte own]
  | none =>
    cases here : m.dirs d with
    | none =>
      rw [setPte_absent here]
      exact .refl m
    | some dir =>
      -- a shared table: the entry of the kernel changes, for every directory that shares it
      have before : (m.kernel v).slot = none := by
        rw [← Mem.pteAt_of_shared here own]
        exact old
      have kernels : ∀ u, ((m.putKernel v e).kernel u).slot = (m.kernel u).slot := by
        intro u
        by_cases same : u = v
        · subst same
          simp [Mem.putKernel, new, before]
        · simp [Mem.putKernel, Function.update_of_ne same]
      rw [setPte_kernel here (Mem.table_of_shared here own)]
      refine ⟨fun d' v' => ?_, fun clean u => ?_, fun d' => rfl⟩
      · simp only [Mem.slotAt, Mem.pteAt_eq]
        change Pte.slot ((m.ownPte d' v').getD
          (if (m.root d').isSome then (m.putKernel v e).kernel v' else .null)) = _
        cases m.ownPte d' v' with
        | some _ => rfl
        | none => cases (m.root d').isSome with
          | true => exact kernels v'
          | false => rfl
      · rw [kernels u]
        exact clean u

theorem setPde_still {p : Pde} (clean : m.KernelClean)
    (old : ∀ v, v / 1024 = i → m.slotAt d v = none)
    (new : ∀ f entries, p.table = .own f entries → ∀ j, (entries j).slot = none) :
    Still m (m.setPde d i p) := by
  cases here : m.dirs d with
  | none =>
    have same : m.setPde d i p = m := by simp only [Mem.setPde, here]
    rw [same]
    exact .refl m
  | some dir =>
    have kernel : (m.setPde d i p).kernel = m.kernel := by
      rw [Mem.setPde_of_dir here]
      rfl
    refine ⟨fun d' v' => ?_, fun _ => ?_, fun d' => ?_⟩
    · simp only [Mem.slotAt, Mem.pteAt_eq, Mem.ownPte_setPde here, Mem.root_setPde here, kernel]
      split
      · rename_i inside
        obtain ⟨rfl, inside⟩ := inside
        have before := old v' inside
        simp only [Mem.slotAt, Mem.pteAt_eq] at before
        rw [before]
        have live : (m.root d').isSome = true := by simp [Mem.root, here]
        cases table : p.table with
        | kernel => simp only [live, if_true, Option.getD_none]; exact clean v'
        | own f entries => exact new f entries table _
      · rfl
    · rw [Mem.KernelClean, kernel]
      exact clean
    · rw [Mem.root_setPde here]

theorem kalloc_still {r : Option Nat} (run : m.kalloc = (r, m')) : Still m m' := by
  obtain ⟨-, rfl⟩ := kalloc_eq run
  exact .of_same rfl rfl

theorem freePage_still (f : Nat) : Still m (m.freePage f) := .of_same rfl rfl

theorem pageRefInc_still (f : Nat) : Still m (m.pageRefInc f) := .of_same rfl rfl

theorem fill_still (f : Nat) (bytes : Nat → UInt8) : Still m (m.fill f bytes) := .of_same rfl rfl

theorem Still.none (still : Still m m') (before : m.slotAt d v = none) : m'.slotAt d v = none :=
  (still.slots d v).trans before

/-! ### Tables -/

theorem Prepared.still (prepared : Prepared m m') : Still m m' where
  slots d v := congrArg Pte.slot (prepared.same d v)
  kernel clean v := by rw [prepared.kernel]; exact clean v
  live d := by rw [prepared.root]

theorem privatise_still {dir : Directory} (here : m.dirs d = some dir)
    (shared : (dir.pde i).table = .kernel) (run : m.privatise d i user rw = (ok, m')) :
    Still m m' := by
  have prepared := (privatise_prepared here shared user rw).still
  rwa [run] at prepared

theorem ensurePrivate_still {r : Mem.EnsureResult} (run : m.ensurePrivate d i user rw = (r, m')) :
    Still m m' := by
  -- the world around the memory plays no part
  have prepared := (ensurePrivate_steps (.touching fun _ => True)
    ⟨m, fun _ => none, fun _ _ => True, 0⟩ d i user rw).2.1.still
  rwa [run] at prepared

theorem widen_still : Still m (m.widen d i user rw) := (widen_prepared m d i user rw).still

/-! ### Entries -/

theorem replacePte_still (old : m.slotAt d v = none) (present : fl.present = true) :
    Still m (m.replacePte d v f fl) := by
  unfold Mem.replacePte
  dsimp only
  split
  · exact (freePage_still _).trans (setPte_still old (Pte.slot_present present))
  · exact setPte_still old (Pte.slot_present present)

theorem vmmMap_still (old : m.slotAt d v = none) : Still m (m.vmmMap d v f fl) := by
  unfold Mem.vmmMap
  dsimp only
  split
  · exact .refl m
  rename_i here
  split
  · exact widen_still.trans (replacePte_still (widen_still.none old) rfl)
  rename_i shared
  split
  · exact widen_still.trans (replacePte_still (widen_still.none old) rfl)
  split
  · rename_i made
    have first := privatise_still here shared made
    exact first.trans (replacePte_still (first.none old) rfl)
  · rename_i made
    exact privatise_still here shared made

theorem clearPte_still (old : m.slotAt d v = none) : Still m (m.clearPte d v) := by
  unfold Mem.clearPte
  dsimp only
  split
  · exact (freePage_still _).trans (setPte_still old Pte.slot_null)
  · exact setPte_still old Pte.slot_null

theorem unmapPage_still (old : m.slotAt d v = none) (run : m.unmapPage d v = (ok, m')) :
    Still m m' := by
  unfold Mem.unmapPage at run
  split at run
  · rename_i made
    cases run
    have first := ensurePrivate_still made
    exact first.trans (clearPte_still (first.none old))
  · rename_i made
    cases run
    exact ensurePrivate_still made
  · rename_i made
    cases run
    exact ensurePrivate_still made

theorem shareCow_still (here : m.slotAt d v = none) (there : m.slotAt c v = none)
    (present : pte.flags.present = true) : Still m (m.shareCow d c v pte) := by
  have noSlot : (⟨pte.frame, { pte.flags with rw := false, cow := true }⟩ : Pte).slot = none :=
    Pte.slot_present present
  have first := setPte_still here noSlot
  exact (first.trans (setPte_still (first.none there) noSlot)).trans (pageRefInc_still _)

theorem forkEntry_still (here : m.slotAt d v = none) (there : m.slotAt c v = none) :
    Still m (m.forkEntry d c v) := by
  unfold Mem.forkEntry
  dsimp only
  split
  · exact setPte_still there here
  rename_i holds
  have present : (m.pteAt d v).flags.present = true :=
    Pte.holds_present (by simpa using holds)
  split
  · split
    · rename_i taken
      have first := kalloc_still taken
      exact (first.trans (fill_still _ _)).trans
        (setPte_still (first.none there) (Pte.slot_present present))
    · rename_i taken
      have first := kalloc_still taken
      exact first.trans (shareCow_still (first.none here) (first.none there) present)
  · exact shareCow_still here there present

theorem cloneShared_still (here : m.slotAt d v = none) (there : m.slotAt c v = none) :
    Still m (m.cloneShared d c v) := by
  unfold Mem.cloneShared
  dsimp only
  split
  · exact .refl m
  split
  · rename_i made
    have first := ensurePrivate_still made
    have second := first.trans (setPte_still (first.none there) here)
    split
    · exact second.trans (pageRefInc_still _)
    · exact second
  · rename_i made
    exact ensurePrivate_still made

theorem clonePrivate_still (here : m.slotAt d v = none) (there : m.slotAt c v = none) :
    Still m (m.clonePrivate d c v) := by
  unfold Mem.clonePrivate
  dsimp only
  split
  · rename_i made
    have first := ensurePrivate_still made
    split
    · exact first.trans (setPte_still (first.none there) here)
    rename_i present
    split
    · rename_i own
      have second := first.trans (ensurePrivate_still own)
      exact second.trans (shareCow_still (second.none here) (second.none there)
        (by simpa using present))
    · rename_i own
      exact first.trans (ensurePrivate_still own)
  · rename_i made
    exact ensurePrivate_still made

/-! ### Page faults -/

theorem copyFrame_still {old : Pte} (before : m.slotAt d v = none) (present : fl.present = true)
    (run : m.copyFrame d v old fl = (ok, m')) : Still m m' := by
  unfold Mem.copyFrame at run
  split at run
  · rename_i taken
    cases run
    exact kalloc_still taken
  · rename_i taken
    cases run
    have first := kalloc_still taken
    exact ((first.trans (fill_still _ _)).trans
      (setPte_still (first.none before) (Pte.slot_present present))).trans (freePage_still _)

theorem vmmHandleCow_still (before : m.slotAt d v = none) (run : m.vmmHandleCow d v = (ok, m')) :
    Still m m' := by
  unfold Mem.vmmHandleCow at run
  dsimp only at run
  split at run
  · cases run
    exact .refl m
  split at run
  · cases run
    exact setPte_still before (Pte.slot_present rfl)
  · exact copyFrame_still before rfl run

theorem growStack_still (before : m.slotAt d v = none) : Still m (m.growStack d v) := by
  unfold Mem.growStack
  split
  · rename_i taken
    exact kalloc_still taken
  rename_i f _ taken
  have first := (kalloc_still taken).trans (fill_still f fun _ => 0)
  exact first.trans (vmmMap_still (first.none before))

theorem demandPage_still (before : m.slotAt d v = none) : Still m (m.demandPage d v pte) := by
  unfold Mem.demandPage
  split
  · rename_i taken
    exact kalloc_still taken
  rename_i taken
  have first := kalloc_still taken
  split
  · exact (first.trans (fill_still _ _)).trans
      (setPte_still (first.none before) (Pte.slot_present rfl))
  · exact first.trans (setPte_still (first.none before) (Pte.slot_present rfl))

theorem absentCow_still (before : m.slotAt d v = none) : Still m (m.absentCow d v pte) := by
  unfold Mem.absentCow
  split
  · exact setPte_still before (Pte.slot_present rfl)
  · exact copyFrame_still before rfl rfl

theorem pageFault_still {write : Bool} (before : m.slotAt d v = none) :
    Still m (m.pageFault d v write) := by
  have cow : ∀ ok m',
      (if (m.pteAt d v).flags.cow then m.vmmHandleCow d v else (false, m)) = (ok, m') →
      Still m m' := by
    intro ok m' run
    split at run
    · exact vmmHandleCow_still before run
    · cases run
      exact .refl m
  unfold Mem.pageFault
  dsimp only
  split
  · split
    · split
      · rename_i handled
        exact cow _ _ handled
      rename_i handled
      have first := cow _ _ handled
      split
      · exact first.trans (growStack_still (first.none before))
      · exact first
    · split
      · exact growStack_still before
      · exact .refl m
  · split
    · exact demandPage_still before
    split
    · exact absentCow_still before
    split
    · exact growStack_still before
    · exact .refl m

/-! ### The end of a fork -/

theorem syncKernelMmio_still (clean : m.KernelClean) (before : ∀ v, m.slotAt c v = none) :
    Still m (m.syncKernelMmio c) := by
  cases here : m.dirs c with
  | none =>
    have same : m.syncKernelMmio c = m := by simp only [Mem.syncKernelMmio, here]
    rw [same]
    exact .refl m
  | some dir =>
    have entries : ∀ d v, (m.syncKernelMmio c).pteAt d v =
        if d = c ∧ pdKernelEntries ≤ v / 1024 then m.kernel v else m.pteAt d v := by
      intro d v
      by_cases same : d = c
      · subst same
        by_cases high : pdKernelEntries ≤ v / 1024
        · simp [Mem.syncKernelMmio, Mem.pteAt, here, Directory.lookup, high, kernelPde]
        · simp [Mem.syncKernelMmio, Mem.pteAt, here, Directory.lookup, high]
      · simp [Mem.syncKernelMmio, Mem.pteAt, here, same]
    refine ⟨fun d v => ?_, fun _ v => ?_, fun d => ?_⟩
    · rw [Mem.slotAt, entries]
      split
      · rename_i inside
        rw [inside.1, before v]
        exact clean v
      · rfl
    · simp only [Mem.syncKernelMmio, here]
      exact clean v
    · by_cases same : d = c
      · subst same
        simp [Mem.syncKernelMmio, Mem.root, here]
      · simp [Mem.syncKernelMmio, Mem.root, here, same]

theorem forkStack_still (parent child : Nat → Nat) (before : ∀ v, m.slotAt c v = none) :
    Still m (m.forkStack c parent child) := by
  refine Still.loop (fun t => ∀ v, t.slotAt c v = none) before ?_
  intro i t _ now
  generalize result : t.vmmMap c (ustackPage + i) (child i) (userFlags true) = u
  have mapped : Still t u := result ▸ vmmMap_still (now _)
  have step := mapped.trans (fill_still (child i) (u.page (parent i)))
  exact ⟨step, fun v => step.none (now v)⟩

theorem mapTrampoline_still (code : Nat → UInt8) (before : ∀ v, m.slotAt c v = none) :
    Still m (m.mapTrampoline c code) := by
  unfold Mem.mapTrampoline
  split
  · rename_i taken
    exact kalloc_still taken
  rename_i f _ taken
  have first := (kalloc_still taken).trans (fill_still f code)
  exact first.trans (vmmMap_still (first.none (before _)))

/-! ### Operations -/

/-- The operations of a fork, which write entries of the child. -/
def Op.copies : Op → Bool
  | .forkTable _ => true
  | .forkEntry _ => true
  | .cloneRegion _ => true
  | .cloneEntry _ _ => true
  | _ => false

theorem freePages_still {pages : Nat → Nat} {n : Nat} :
    Still m (countTo (fun i m => m.freePage (pages i)) n m) :=
  Still.loop (fun _ => True) trivial fun _ _ _ _ => ⟨freePage_still _, trivial⟩

theorem memfdMapDec_still {h : Nat} (same : x.mem = m) : Still m (x.memfdMapDec h).mem := by
  subst same
  unfold Vm.memfdMapDec maybeFreeLocked
  split
  · exact .refl _
  split
  · exact .refl _
  · exact freePages_still

theorem shrinkRegion_still {a n : Nat} : Still x.mem (x.shrinkRegion i a n).mem := by
  unfold Vm.shrinkRegion
  dsimp only
  split
  · split
    · exact memfdMapDec_still rfl
    · exact .refl _
  · split
    · exact .refl _
    · exact .refl _

variable {more : List Op}

theorem forkTable_still (clean : x.mem.KernelClean) (child : ∀ v, x.mem.slotAt c v = none)
    (run : (Op.forkTable i).run d c x = (y, more)) : Still x.mem y.mem := by
  rw [Op.run] at run
  split at run
  · cases run
    exact .refl _
  rename_i dir here
  split at run
  · cases run
    exact .refl _
  split at run
  · rename_i shared
    cases run
    refine setPde_still clean (fun v _ => child v) ?_
    intro f entries table
    rw [shared] at table
    cases table
  · split at run
    · rename_i taken
      cases run
      exact kalloc_still taken
    rename_i taken
    cases run
    have first := kalloc_still taken
    refine first.trans (setPde_still (first.kernel clean) (fun v _ => first.none (child v)) ?_)
    intro f entries table j
    cases table
    exact first.kernel clean _

theorem Op.run_still {op : Op} (clean : x.mem.KernelClean)
    (source : ∀ v, op.page = some v → x.mem.slotAt d v = none)
    (child : op.copies = true → ∀ v, x.mem.slotAt c v = none) (run : op.run d c x = (y, more)) :
    Still x.mem y.mem := by
  cases op with
  | forkTable i => exact forkTable_still clean (child rfl) run
  | forkEntry v =>
    cases run
    exact forkEntry_still (source v rfl) (child rfl v)
  | cloneRegion i =>
    rw [Op.run] at run
    split at run
    · cases run
      exact .refl _
    cases run
    split
    · rw [Vm.memfdMapInc_mem]
      exact .refl _
    · exact .refl _
  | cloneEntry v shared =>
    cases shared with
    | true =>
      cases run
      exact cloneShared_still (source v rfl) (child rfl v)
    | false =>
      cases run
      exact clonePrivate_still (source v rfl) (child rfl v)
  | freeRegion i | munmap addr length =>
    cases run
    exact .refl _
  | unmapEntry region a n k =>
    rw [Op.run] at run
    split at run
    · cases run
      exact shrinkRegion_still
    rename_i inside
    have entry : x.mem.slotAt d (wrapPage (a + k)) = none :=
      source _ (by simp only [Op.page, if_neg inside])
    split at run
    · rename_i unmapped
      cases run
      exact unmapPage_still entry unmapped
    · rename_i unmapped
      cases run
      exact unmapPage_still entry unmapped

theorem Op.run_copies {op later : Op} (run : op.run d c x = (y, more)) (member : later ∈ more)
    (copying : later.copies = true) : op.copies = true := by
  cases op with
  | forkTable i | forkEntry v | cloneRegion i | cloneEntry v shared => rfl
  | freeRegion i =>
    cases run
    split at member
    · exact absurd member not_mem_nil
    · rw [mem_singleton.mp member] at copying
      exact copying
  | munmap addr length =>
    cases run
    split at member
    · exact absurd member not_mem_nil
    split at member
    · exact absurd member not_mem_nil
    · rw [mem_singleton.mp member] at copying
      exact copying
  | unmapEntry region a n k =>
    rw [Op.run] at run
    split at run
    · cases run
      exact absurd member not_mem_nil
    split at run
    · cases run
      rw [mem_singleton.mp member] at copying
      exact copying
    · cases run
      exact absurd member not_mem_nil

end CactKernel.Memory
