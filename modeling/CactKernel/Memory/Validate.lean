import CactKernel.Memory.Allocator
import CactKernel.Memory.Process

/-! # Pointers that come from user space

`validate.c`: the range check on pointers that a system call is given, and the
copies that trust it. A copy runs in the kernel under the directory of the
process, so it goes wherever the directory leads. -/

set_option autoImplicit false

namespace CactKernel.Memory

open Lib Bool

def userSpaceStart : Nat := 0x08000000

def kernelBase : Nat := 0xC0000000

def validateUserPtr (addr size : Nat) : Bool :=
  if addr = 0 then false
  else if addr < userSpaceStart then false
  else if kernelBase ≤ addr then false
  else if size = 0 then true
  else
    let last := (addr + size) % 2 ^ 32
    if last < addr then false
    else if kernelBase < last then false
    else true

namespace Mem

/-- The byte at an address, as the kernel reads it under directory `d`. -/
def loadByte (m : Mem) (d : DirId) (addr : Nat) : UInt8 :=
  m.page (m.pteAt d (addr / pageSize)).frame (addr % pageSize)

def storeByte (m : Mem) (d : DirId) (addr : Nat) (b : UInt8) : Mem :=
  m.store d (addr / pageSize) (addr % pageSize) b

def copyToUser (m : Mem) (d : DirId) (dst size : Nat) (src : Nat → UInt8) : Bool × Mem :=
  if validateUserPtr dst size then
    (true, countTo (fun i m => m.storeByte d (dst + i) (src i)) size m)
  else (false, m)

/-- The first `size` bytes of the kernel's buffer after the copy. -/
def copyFromUser (m : Mem) (d : DirId) (src size : Nat) : Option (List UInt8) :=
  if validateUserPtr src size then
    some ((List.range size).map fun i => m.loadByte d (src + i))
  else none

/-- The frame backs a page that the process may use. -/
def Backs (m : Mem) (d : DirId) (f : Nat) : Prop :=
  ∃ v, m.userMapped d v = true ∧ (m.pteAt d v).frame = f

/-- Every page between `USER_SPACE_START` and `KERNEL_BASE` is the process's. -/
def FullyMapped (m : Mem) (d : DirId) : Prop :=
  ∀ v, userSpaceStart ≤ v * pageSize → v * pageSize < kernelBase → m.userMapped d v = true

end Mem

/-! ## The range -/

theorem validateUserPtr_iff {addr size : Nat} (word : size < 2 ^ 32) :
    validateUserPtr addr size = true ↔
      userSpaceStart ≤ addr ∧ addr < kernelBase ∧ addr + size ≤ kernelBase := by
  unfold validateUserPtr userSpaceStart kernelBase
  dsimp only
  -- one case for each refusal, and the two ways to be accepted
  repeat' split
  all_goals
    simp only [false_eq_true, false_iff, true_iff]
    omega

namespace Mem

variable {m : Mem} {d : DirId}

theorem FullyMapped.page (full : m.FullyMapped d) {addr size i : Nat} (word : size < 2 ^ 32)
    (accepted : validateUserPtr addr size = true) (inside : i < size) :
    m.userMapped d ((addr + i) / pageSize) = true := by
  obtain ⟨above, -, within⟩ := (validateUserPtr_iff word).mp accepted
  unfold FullyMapped userSpaceStart kernelBase pageSize at *
  apply full
  · omega
  · omega

/-! ## The copies -/

theorem storeByte_pteAt (addr : Nat) (b : UInt8) (v : Nat) :
    (m.storeByte d addr b).pteAt d v = m.pteAt d v := rfl

theorem copy_page {dst n f : Nat} {src : Nat → UInt8}
    (apart : ∀ i < n, (m.pteAt d ((dst + i) / pageSize)).frame ≠ f) :
    (countTo (fun i m => m.storeByte d (dst + i) (src i)) n m).page f = m.page f := by
  -- the copy writes no table, so its pages are the same to the end
  have whole : (∀ v, (countTo (fun i m => m.storeByte d (dst + i) (src i)) n m).pteAt d v =
      m.pteAt d v) ∧
        (countTo (fun i m => m.storeByte d (dst + i) (src i)) n m).page f = m.page f := by
    apply countTo_invariant (fun _ t => (∀ v, Mem.pteAt t d v = m.pteAt d v) ∧ t.page f = m.page f)
    · exact ⟨fun _ => rfl, rfl⟩
    · rintro i t small ⟨tables, kept⟩
      refine ⟨fun v => (storeByte_pteAt _ _ v).trans (tables v), ?_⟩
      have other : f ≠ (t.pteAt d ((dst + i) / pageSize)).frame := by
        rw [tables]
        exact (apart i small).symm
      unfold storeByte store fill
      dsimp only
      rw [Function.update_of_ne other]
      exact kept
  exact whole.2

/-- Accepted pointers lie on pages of the process, and the copies neither write nor read anything
else, exactly if every page of the user range is mapped. -/
theorem user_copies_checked_iff (m : Mem) (d : DirId) :
    ((∀ addr size, size < 2 ^ 32 → validateUserPtr addr size = true → ∀ i < size,
        m.userMapped d ((addr + i) / pageSize) = true) ∧
      (∀ dst size src f, size < 2 ^ 32 →
        (m.copyToUser d dst size src).2.page f ≠ m.page f → m.Backs d f) ∧
      (∀ src size page, size < 2 ^ 32 → (∀ f, m.Backs d f → page f = m.page f) →
        copyFromUser { m with page } d src size = m.copyFromUser d src size)) ↔
    m.FullyMapped d := by
  constructor
  · rintro ⟨checked, -, -⟩ v above below
    have accepted : validateUserPtr (v * pageSize) 1 = true := by
      rw [validateUserPtr_iff (by decide)]
      unfold userSpaceStart kernelBase pageSize at *
      omega
    have mapped := checked _ 1 (by decide) accepted 0 (by decide)
    have same : (v * pageSize + 0) / pageSize = v := by
      unfold pageSize
      omega
    rw [same] at mapped
    exact mapped
  · intro full
    refine ⟨fun addr size word accepted i inside => full.page word accepted inside, ?_, ?_⟩
    · intro dst size src f word changed
      by_contra foreign
      apply changed
      unfold copyToUser
      split
      · rename_i accepted
        apply copy_page
        intro i inside same
        exact foreign ⟨_, full.page word accepted inside, same⟩
      · rfl
    · intro src size page word agree
      unfold copyFromUser
      split
      · rename_i accepted
        congr 1
        apply List.map_congr_left
        intro i member
        have mapped := full.page word accepted (List.mem_range.mp member)
        exact congrFun (agree _ ⟨_, mapped, rfl⟩) _
      · rfl

end Mem

/-! ## A fresh directory -/

/-- A process that has mapped nothing yet names a kernel address: the pointer is accepted, the
page is the kernel's, and the copy writes it. -/
theorem kernel_page_accepted :
    let created := (boot oneFrame fun _ _ => 0).mem.vmmCreateAddressSpace (1, 0)
    created.1 = true ∧ validateUserPtr 0x10000000 1 = true ∧
      created.2.userMapped (1, 0) 0x10000 = false ∧
      (created.2.copyToUser (1, 0) 0x10000000 1 fun _ => 1).2.page 0x10000 0 = 1 ∧
      created.2.page 0x10000 0 = 0 := by
  decide +kernel

end CactKernel.Memory
