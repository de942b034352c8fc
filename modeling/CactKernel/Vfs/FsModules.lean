import CactKernel.Vfs.Mounts

/-! # Loading and unloading filesystem modules

The slots of `fs_mod.c`. Beside the devices that a slot notes, the model keeps the mounts that
its image has returned and that are not unmounted yet: an image must not be freed before they
are gone. A slot notes a device once and no more than `FS_MOD_MAX_MOUNTS` devices. -/

set_option autoImplicit false

namespace CactKernel.FsModules

open Mounts Function Lib

local instance : LawfulBEq Text := inferInstance

def fsModMax : Nat := 8

/-- A used `fs_slot_t`; `returned` are the mounts of its image. -/
structure Module where
  slot : Slot
  returned : List (Text × Nat)
deriving DecidableEq

/-- `next` is the number of the next mount. -/
structure State where
  modules : Nat → Option Module
  next : Nat

namespace State

def slotByInstance (s : State) (inst : Text) : Option Nat :=
  (List.range fsModMax).find? fun i => (s.modules i).any fun m => m.slot.inst = inst

/-- `fs_mod_load`, of a path with this instance name; `loads` says that the image is loaded. -/
def fsModLoad (s : State) (inst : Text) (loads : Bool) : State :=
  match (List.range fsModMax).find? fun i => (s.modules i).isNone with
  | none => s
  | some i =>
    if (s.slotByInstance inst).isSome ∨ loads = false then s
    else { s with modules := update s.modules i (some ⟨⟨inst, []⟩, []⟩) }

/-- The result is there if the image was freed. -/
def slotUnload (s : State) (i : Nat) : Option State :=
  match s.modules i with
  | none => none
  | some m =>
    if m.slot.mounted.length > 0 then none else some { s with modules := update s.modules i none }

/-- The slot that mounts a device, if any: `finds` says which modules find their filesystem. -/
def mountSlot (s : State) (fstype : Text) (finds : Nat → Bool) : Option Nat :=
  if fstype = [] ∨ fstype = "auto".toList ∨ fstype = "*".toList then
    (List.range fsModMax).find? fun i => (s.modules i).isSome && finds i
  else (s.slotByInstance fstype).filter finds

/-- `fs_mod_mount_type`, which is `fs_mod_mount` without a type. -/
def fsModMountType (s : State) (dev fstype : Text) (finds : Nat → Bool) : State :=
  match s.mountSlot fstype finds with
  | none => s
  | some i =>
    ⟨update s.modules i ((s.modules i).map fun m =>
      ⟨m.slot.noteMount dev s.next, m.returned ++ [(dev, s.next)]⟩), s.next + 1⟩

end State

/-- A slot that notes the device unmounts it once. -/
def Module.unmountDev (dev : Text) (m : Module) : Module :=
  if dev ∈ m.slot.mounted.map (·.1) then
    ⟨{ m.slot with mounted := m.slot.mounted.eraseP fun p => p.1 = dev },
      m.returned.eraseP fun p => p.1 = dev⟩
  else m

inductive Action
  | load (inst : Text) (loads : Bool)
  | mount (dev fstype : Text) (finds : Nat → Bool)
  | unmountDev (dev : Text)
  | unload (inst : Text)
  | unloadSlot (slot : Nat)

namespace State

def step (s : State) : Action → State
  | .load inst loads => s.fsModLoad inst loads
  | .mount dev fstype finds => s.fsModMountType dev fstype finds
  | .unmountDev dev => { s with modules := fun i => (s.modules i).map (Module.unmountDev dev) }
  | .unload inst => ((s.slotByInstance inst).bind s.slotUnload).getD s
  | .unloadSlot i => if i < fsModMax then (s.slotUnload i).getD s else s

/-- An image that could be freed now has no mounts. -/
def Safe (s : State) : Prop :=
  ∀ i m, s.modules i = some m → (s.slotUnload i).isSome → m.returned = []

/-- The slot that mounts a device does not note it yet and has room for it. -/
def Guard (s : State) : Action → Prop
  | .mount dev fstype finds => ∀ i m, s.mountSlot fstype finds = some i → s.modules i = some m →
      dev ∉ m.slot.mounted.map (·.1) ∧ m.slot.mounted.length < fsModMaxMounts
  | _ => True

/-- Every slot notes the mounts of its image. -/
def Tracked (s : State) : Prop := ∀ i, ∀ m ∈ s.modules i, m.returned = m.slot.mounted

variable {s : State}

theorem Tracked.set (tracked : s.Tracked) (i n : Nat) {x : Option Module}
    (new : ∀ m ∈ x, m.returned = m.slot.mounted) : Tracked ⟨update s.modules i x, n⟩ :=
  (forall_update_iff s.modules fun _ x => ∀ m ∈ x, m.returned = m.slot.mounted).mpr
    ⟨new, fun j _ => tracked j⟩

theorem Tracked.slotUnload (tracked : s.Tracked) {i : Nat} {t : State}
    (run : s.slotUnload i = some t) : t.Tracked := by
  rw [State.slotUnload] at run
  split at run
  · cases run
  split at run
  · cases run
  · cases run
    exact tracked.set i _ nofun

theorem Tracked.step (tracked : s.Tracked) {a : Action} (meets : s.Guard a) :
    (s.step a).Tracked := by
  cases a with
  | load inst loads =>
    rw [State.step, fsModLoad]
    split
    · exact tracked
    split
    · exact tracked
    · exact tracked.set _ _ (by simp)
  | mount dev fstype finds =>
    rw [State.step, fsModMountType]
    split
    · exact tracked
    rename_i i taken
    refine tracked.set i _ fun m new => ?_
    obtain ⟨old, found, rfl⟩ := Option.map_eq_some_iff.mp new
    obtain ⟨fresh, room⟩ := meets i old taken found
    rw [Slot.noteMount, if_neg fresh, if_neg (Nat.not_le.mpr room), tracked i old found]
  | unmountDev dev =>
    intro i m found
    obtain ⟨old, before, rfl⟩ := Option.map_eq_some_iff.mp found
    rw [Module.unmountDev]
    split
    · rw [tracked i old before]
    · exact tracked i old before
  | unload inst =>
    rw [State.step]
    cases run : (s.slotByInstance inst).bind s.slotUnload with
    | none => exact tracked
    | some t =>
      obtain ⟨i, -, freed⟩ := Option.bind_eq_some_iff.mp run
      exact tracked.slotUnload freed
  | unloadSlot i =>
    rw [State.step]
    split
    · cases run : s.slotUnload i with
      | none => exact tracked
      | some t => exact tracked.slotUnload run
    · exact tracked

theorem Tracked.safe (tracked : s.Tracked) : s.Safe := by
  intro i m found freed
  rw [tracked i m found]
  simpa [State.slotUnload, found] using freed

end State

/-- No module is loaded. -/
def State.start : State := ⟨fun _ => none, 0⟩

def Step (s : State) (a : Action) (t : State) : Prop := s.step a = t

/-- As long as no device is mounted that its slot already notes or has no room for, images are
freed without mounts. -/
theorem no_unload_under_mount {s : State}
    (reached : Reach (· = .start) (restrict State.Guard Step) s) : s.Safe := by
  refine State.Tracked.safe (reached.invariant State.Tracked ?_ ?_)
  · rintro s rfl i m found
    cases found
  · rintro s a t tracked ⟨meets, rfl⟩
    exact tracked.step meets

theorem State.guard_mount {s : State} {dev fstype : Text} {finds : Nat → Bool} {i : Nat}
    {m : Module} (taken : s.mountSlot fstype finds = some i) (found : s.modules i = some m)
    (fresh : dev ∉ m.slot.mounted.map (·.1)) (room : m.slot.mounted.length < fsModMaxMounts) :
    s.Guard (.mount dev fstype finds) := by
  intro j n slot here
  cases taken.symm.trans slot
  cases found.symm.trans here
  exact ⟨fresh, room⟩

/-- A module mounts two devices, one of them is unmounted, and the unload is refused. -/
def refusedUnload : List Action :=
  [.load ['f'] true, .mount ['d'] [] fun _ => true, .mount ['e'] ['f'] fun _ => true,
    .unmountDev ['d'], .unload ['f']]

theorem no_unload_under_mount_refused :
    let s := refusedUnload.foldl State.step .start
    (s.modules 0).map (·.returned) = some [(['e'], 1)] ∧ s.Safe := by
  refine ⟨by decide, no_unload_under_mount (.next (a := .unload ['f']) (.next
    (a := .unmountDev ['d']) (.next (a := .mount ['e'] ['f'] fun _ => true) (.next
      (a := .mount ['d'] [] fun _ => true) (.next (a := .load ['f'] true) (.start rfl)
        ⟨trivial, rfl⟩) ⟨?_, rfl⟩) ⟨?_, rfl⟩) ⟨trivial, rfl⟩) ⟨trivial, rfl⟩)⟩
  · exact State.guard_mount (i := 0) rfl rfl (by decide) (by decide)
  · exact State.guard_mount (i := 0) (by decide) rfl (by decide) (by decide)

/-- A device that is mounted twice is noted once: after one unmount the module can be freed
under the other mount. -/
theorem unload_under_second_mount : ∃ s, Reach (· = .start) Step s ∧ ¬ s.Safe := by
  obtain ⟨s, reached, facts⟩ := Reach.exists_of_run (· = .start) (fun s a => some (State.step s a))
    (fun _ _ _ => Option.some.inj) rfl [.load ['f'] true, .mount ['d'] [] fun _ => true,
      .mount ['d'] [] fun _ => true, .unmountDev ['d']]
    (fun s => (s.slotUnload 0).isSome ∧ (s.modules 0).map (·.returned) = some [(['d'], 1)])
    (by decide)
  refine ⟨s, reached, fun safe => ?_⟩
  obtain ⟨m, found, held⟩ := Option.map_eq_some_iff.mp facts.2
  rw [safe 0 m found facts.1] at held
  cases held

end CactKernel.FsModules
