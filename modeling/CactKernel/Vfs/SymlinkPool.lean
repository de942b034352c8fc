import CactKernel.Vfs.Mounts
import Mathlib.Data.Finset.Card

/-! # The symlink pool

A directory without symlinks of its own gets them from a pool of the VFS: the link is
an entry of the pool, mounted in the directory. The mount table is kept with its
count, and a target is an entry of the pool or `none` for any other node. -/

set_option autoImplicit false

namespace CactKernel.Vfs

open Lib Function Mounts List Option

def vfsSymlinkPoolSize : Nat := 256

structure Mount where
  host : Nat
  name : Text
  target : Option Nat

structure LinkPool where
  inUse : Nat → Bool
  refcount : Nat → UInt32
  mounts : Nat → Mount
  count : Nat

namespace LinkPool

def lookupMount (s : LinkPool) (host : Nat) (name : Text) : Option Nat :=
  (range s.count).find? fun a => (s.mounts a).host = host ∧ (s.mounts a).name = name

/-- The entry that a name in a directory leads to. -/
def link (s : LinkPool) (host : Nat) (name : Text) : Option (Nat × Nat) :=
  (s.lookupMount host name).bind fun a => (s.mounts a).target.map (a, ·)

def nodeRef (s : LinkPool) (i : Nat) : LinkPool :=
  { s with refcount := update s.refcount i (s.refcount i + 1) }

def nodeUnref (s : LinkPool) (i : Nat) : LinkPool :=
  if s.refcount i = 0 then s
  else { s with
    refcount := update s.refcount i (s.refcount i - 1)
    inUse := if s.refcount i = 1 then update s.inUse i false else s.inUse }

def symlinkAlloc (s : LinkPool) (i : Nat) : LinkPool :=
  { s with inUse := update s.inUse i true, refcount := update s.refcount i 1 }

def vfsMount (s : LinkPool) (host : Nat) (name : Text) (i : Nat) : Option LinkPool :=
  if s.count ≥ vfsMountMax ∨ (s.lookupMount host name).isSome then none
  else some { s with
    mounts := update s.mounts s.count ⟨host, name.take 127, some i⟩, count := s.count + 1 }

/-- The last mount moves into the place of the one taken out. -/
def vfsUmount (s : LinkPool) (a : Nat) : LinkPool :=
  { s with mounts := update s.mounts a (s.mounts (s.count - 1)), count := s.count - 1 }

inductive Act
  | symlink (host : Nat) (name : Text)
  | walkOne (host : Nat) (name : Text)
  | unlink (host : Nat) (name : Text)

def step (s : LinkPool) : Act → LinkPool
  | .symlink host name =>
    match (range vfsSymlinkPoolSize).find? fun i => !s.inUse i with
    | none => s
    | some i => ((s.symlinkAlloc i).vfsMount host name i).getD ((s.symlinkAlloc i).nodeUnref i)
  | .walkOne host name => match s.link host name with
    | some (_, i) => s.nodeRef i
    | none => s
  -- anything but a link is left to the filesystem of the directory
  | .unlink host name => match s.link host name with
    | some (a, i) => ((s.nodeRef i).vfsUmount a).nodeUnref i
    | none => s

def used (s : LinkPool) : Finset Nat := (Finset.range vfsSymlinkPoolSize).filter (s.inUse · = true)

def mounted (s : LinkPool) : Finset Nat :=
  (Finset.range s.count).filter fun a => (s.mounts a).target.isSome = true

def Start (s : LinkPool) : Prop :=
  s.count ≤ vfsMountMax ∧ (∀ i, s.inUse i = false) ∧ ∀ a, (s.mounts a).target = none

/-- Each link is mounted once. -/
structure Law (s : LinkPool) : Prop where
  few : s.count ≤ vfsMountMax
  held : ∀ a i, a < s.count → (s.mounts a).target = some i →
    i < vfsSymlinkPoolSize ∧ s.inUse i = true
  once : ∀ a b i, a < s.count → b < s.count → (s.mounts a).target = some i →
    (s.mounts b).target = some i → a = b
  found : ∀ i, s.inUse i = true → ∃ a < s.count, (s.mounts a).target = some i

variable {s : LinkPool} {host a i : Nat} {name : Text}

theorem link_some (found : s.link host name = some (a, i)) :
    a < s.count ∧ (s.mounts a).target = some i := by
  simp only [link, bind_eq_some_iff, map_eq_some_iff, Prod.mk.injEq] at found
  obtain ⟨b, place, j, target, rfl, rfl⟩ := found
  exact ⟨mem_range.mp (mem_of_find?_eq_some place), target⟩

theorem Law.symlink (law : s.Law) : (s.step (.symlink host name)).Law := by
  simp only [step]
  cases free : (range vfsSymlinkPoolSize).find? fun i => !s.inUse i with
  | none => exact law
  | some i =>
    have inside := mem_range.mp (mem_of_find?_eq_some free)
    have unused : s.inUse i = false := by simpa using find?_some free
    obtain ⟨few, held, once, found⟩ := law
    simp only [vfsMount]
    split
    · -- the reference of the allocation is the last one
      have back : (s.symlinkAlloc i).nodeUnref i =
          { s with refcount := update s.refcount i 0 } := by
        simp [nodeUnref, symlinkAlloc, ← unused]
      rw [getD_none, back]
      exact ⟨few, held, once, found⟩
    · rename_i place
      simp only [symlinkAlloc, not_or, Nat.not_le] at place
      refine ⟨place.1, ?_, ?_, fun j taken => ?_⟩ <;>
        simp only [getD_some, symlinkAlloc, update_apply] at *
      · grind
      · grind
      · by_cases new : j = i
        · exact ⟨s.count, by simp [new]⟩
        · grind

/-- The removal of a link releases its entry. -/
def Releases (s : LinkPool) : Act → Prop
  | .unlink host name => ∀ a i, s.link host name = some (a, i) → s.refcount i = 0
  | _ => True

theorem Law.unlink (law : s.Law) (releases : s.Releases (.unlink host name)) :
    (s.step (.unlink host name)).Law := by
  simp only [step]
  split
  · rename_i a i place
    obtain ⟨inside, target⟩ := link_some place
    have last := releases a i place
    obtain ⟨few, held, once, found⟩ := law
    have after : ((s.nodeRef i).vfsUmount a).nodeUnref i = { s with
        refcount := update s.refcount i 0, inUse := update s.inUse i false
        mounts := update s.mounts a (s.mounts (s.count - 1)), count := s.count - 1 } := by
      simp [nodeUnref, vfsUmount, nodeRef, last]
    rw [after]
    refine ⟨?_, ?_, ?_, fun j taken => ?_⟩ <;> simp only [update_apply] at *
    · omega
    · grind
    · grind
    · obtain ⟨b, below, there⟩ := found j (by grind)
      by_cases top : b = s.count - 1
      · exact ⟨a, by grind⟩
      · exact ⟨b, by grind⟩
  · exact law

theorem Law.card (law : s.Law) : s.used.card = s.mounted.card := by
  refine (Finset.card_bij (fun a _ => ((s.mounts a).target).getD 0) ?_ ?_ ?_).symm <;>
    simp only [mounted, used, Finset.mem_filter, Finset.mem_range, isSome_iff_exists]
  · rintro a ⟨inside, i, target⟩
    simpa only [target, getD_some] using law.held a i inside target
  · rintro a ⟨inside, i, here⟩ b ⟨below, j, there⟩ same
    simp only [here, there, getD_some] at same
    exact law.once a b i inside below here (same ▸ there)
  · rintro i ⟨_, taken⟩
    obtain ⟨a, inside, target⟩ := law.found i taken
    exact ⟨a, ⟨inside, i, target⟩, by rw [target]; rfl⟩

/-- In every run in which each removal finds the link's count of references at zero, the
entries in use are as many as the links mounted, and one is left for the next link. -/
theorem symlink_pool_reclaimed
    (reached : Reach Start (restrict Releases fun s a t => s.step a = t) s) :
    s.used.card = s.mounted.card ∧ s.used.card < vfsSymlinkPoolSize := by
  have law : s.Law := by
    refine reached.invariant Law ?_ ?_
    · rintro s ⟨few, unused, none⟩
      refine ⟨few, ?_, ?_, ?_⟩ <;> simp [unused, none]
    · rintro s a t law ⟨releases, rfl⟩
      cases a with
      | symlink host name => exact law.symlink
      | walkOne host name =>
        simp only [step]
        split
        · exact ⟨law.few, law.held, law.once, law.found⟩
        · exact law
      | unlink host name => exact law.unlink releases
  refine ⟨law.card, ?_⟩
  rw [law.card]
  exact (Finset.card_filter_le _ _).trans_lt
    (by rw [Finset.card_range]; exact law.few.trans_lt (by decide))

def fresh : LinkPool := ⟨fun _ => false, fun _ => 0, fun _ => ⟨0, [], none⟩, 0⟩

theorem symlink_pool_reclaimed_one :
    (fresh.step (.symlink 0 ['l'])).used.card = 1 ∧
      (fresh.step (.symlink 0 ['l'])).mounted.card = 1 := by
  have reached := symlink_pool_reclaimed
    (.next (s := fresh) (a := .symlink 0 ['l']) (.start ⟨Nat.zero_le _, fun _ => rfl, fun _ => rfl⟩)
      ⟨trivial, rfl⟩)
  have counted : (fresh.step (.symlink 0 ['l'])).mounted.card = 1 := by decide +kernel
  exact ⟨reached.1.trans counted, counted⟩

/-- A link is made and removed: its entry stays in use. -/
theorem symlink_pool_leak : ∃ s, Reach Start (fun s a t => s.step a = t) s ∧
    s.used.card = 1 ∧ s.mounted.card = 0 :=
  Reach.exists_of_run Start (fun s a => some (s.step a)) (fun _ _ _ => Option.some.inj)
    (show Start fresh from ⟨Nat.zero_le _, fun _ => rfl, fun _ => rfl⟩)
    [.symlink 0 ['l'], .unlink 0 ['l']] _ (by decide +kernel)

end LinkPool

end CactKernel.Vfs
