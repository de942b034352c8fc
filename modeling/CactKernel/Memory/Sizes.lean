import CactKernel.Memory.Process

/-! # The size that a caller gets

`do_mmap`, `shm_get` and the memfd calls round a byte length up to pages in `u32`. Above
`2 ^ 32 - PAGE_SIZE` the sum wraps and the rounded length is 0, which only `memfd_truncate`
refuses. -/

set_option autoImplicit false

namespace CactKernel.Memory

open Function

theorem pagesOf_covers_iff {size : Nat} (word : size < 2 ^ 32) :
    size ≤ pagesOf size * pageSize ↔ size ≤ 2 ^ 32 - pageSize := by
  unfold pagesOf pageSize
  omega

/-- The stored size lies in the pages of the object. -/
structure Memfd.Backed (o : Memfd) : Prop where
  size : o.size ≤ o.numPages * pageSize
  pages : o.numPages ≤ memfdMaxPages

variable {m m' : Mem} {o o' : Memfd} {need size : Nat}

theorem growLocked_true (run : growLocked m o need = (true, m', o')) :
    o'.size = o.size ∧ o'.numPages = max o.numPages need ∧
      o'.numPages ≤ max o.numPages memfdMaxPages := by
  unfold growLocked at run
  split at run
  · cases run
    exact ⟨rfl, by omega, by omega⟩
  split at run
  · cases run
  split at run
  · cases run
    exact ⟨rfl, by dsimp only; omega, by dsimp only; omega⟩
  · cases run

theorem growLocked_covers_iff (word : size < 2 ^ 32) (backed : o.Backed)
    (run : growLocked m o (pagesOf size) = (true, m', o')) :
    size ≤ o'.numPages * pageSize ↔ size ≤ 2 ^ 32 - pageSize := by
  obtain ⟨-, pages, -⟩ := growLocked_true run
  have few := backed.pages
  rw [pages]
  unfold pagesOf pageSize memfdMaxPages at *
  omega

theorem Memfd.Backed.grow (backed : o.Backed) (run : growLocked m o need = (true, m', o'))
    (fits : size ≤ o'.numPages * pageSize) : Memfd.Backed { o' with size } := by
  obtain ⟨-, -, few⟩ := growLocked_true run
  exact ⟨fits, Nat.le_trans few (Nat.max_le.mpr ⟨backed.pages, Nat.le_refl _⟩)⟩

/-- `memfd_truncate` refuses what `MEMFD_MAX_PAGES` cannot hold, before it rounds. -/
theorem Machine.memfdTruncate_backed (s : Machine) (h : Nat) (backed : (s.objects h).Backed) :
    ((s.memfdTruncate h size).2.objects h).Backed ∧ ((s.memfdTruncate h size).1 = true →
      ((s.memfdTruncate h size).2.objects h).size = size) := by
  unfold memfdTruncate
  split
  · exact ⟨backed, nofun⟩
  rename_i small
  have word : size < 2 ^ 32 := by
    unfold memfdMaxPages pageSize at small
    omega
  split
  · by_cases grows : (s.objects h).size < size
    · rw [if_pos grows]
      cases run : growLocked s.mem (s.objects h) (pagesOf size) with
      | mk done rest =>
        cases done with
        | true =>
          have fits : size ≤ rest.2.numPages * pageSize := by
            apply (growLocked_covers_iff word backed run).mpr
            unfold memfdMaxPages pageSize at *
            omega
          simpa using backed.grow run fits
        | false => exact ⟨backed, nofun⟩
    · rw [if_neg grows]
      simpa using (⟨Nat.le_trans (Nat.le_of_not_lt grows) backed.size, backed.pages⟩ :
        Memfd.Backed { s.objects h with size })
  · exact ⟨backed, nofun⟩

/-- A rounding that does not wrap is what each call needs to deliver the size it was asked for. -/
theorem size_delivered_iff (size : Nat) (word : size < 2 ^ 32) :
    (∀ (x : Vm) (d : DirId) (args : MmapArgs) (v : Nat), args.length = size →
      (x.doMmap d args).1 = some v →
        ∃ slot, ((x.doMmap d args).2.table.regions slot).used = true ∧
          ((x.doMmap d args).2.table.regions slot).base = v ∧
          (size ≤ ((x.doMmap d args).2.table.regions slot).pages * pageSize ↔
            size ≤ 2 ^ 32 - pageSize)) ∧
    (∀ (s : Machine) (i : Nat), (s.segments i).valid = false →
      ((s.shmGet size).segments i).valid = true →
        (size ≤ ((s.shmGet size).segments i).numPages * pageSize ↔ size ≤ 2 ^ 32 - pageSize)) ∧
    (∀ (x : Vm) (h : Nat), (x.objects h).Backed → (x.memfdGrowTo h size).1 = true →
      (((x.memfdGrowTo h size).2.objects h).Backed ∧
          size ≤ ((x.memfdGrowTo h size).2.objects h).size ↔ size ≤ 2 ^ 32 - pageSize)) ∧
    ∀ (s : Machine) (h : Nat), (s.objects h).Backed →
      ((s.memfdTruncate h size).2.objects h).Backed ∧ ((s.memfdTruncate h size).1 = true →
        size ≤ ((s.memfdTruncate h size).2.objects h).numPages * pageSize) := by
  refine ⟨?_, ?_, ?_, fun s h backed => ?_⟩
  · intro x d args v length success
    unfold Vm.doMmap at success ⊢
    split at success
    · cases success
    rename_i proper
    rw [if_neg proper]
    split at success
    · cases success
    split at success
    · cases success
    rename_i slot free
    split at success
    · cases success
    cases success
    refine ⟨slot, ?_⟩
    simpa [MmapTable.set, length] using pagesOf_covers_iff word
  · intro s i unused created
    unfold Machine.shmGet at created ⊢
    split at created
    · cases unused.symm.trans created
    rename_i j free
    split at created
    · cases unused.symm.trans created
    rename_i proper
    rw [if_neg proper]
    split at created
    · dsimp only at created ⊢
      by_cases same : i = j
      · rw [same, update_self]
        exact pagesOf_covers_iff word
      · rw [update_of_ne same, unused] at created
        cases created
    · cases unused.symm.trans created
  · intro x h backed success
    unfold Vm.memfdGrowTo at success ⊢
    split at success
    · cases success
    rename_i valid
    rw [if_neg valid]
    split at success
    · rename_i m o run
      have covers := growLocked_covers_iff word backed run
      simp only [update_self]
      rw [← covers]
      constructor
      · rintro ⟨after, large⟩
        exact Nat.le_trans (Nat.le_max_right ..) after.size
      · intro fits
        obtain ⟨same, pages, -⟩ := growLocked_true run
        refine ⟨backed.grow run (Nat.max_le.mpr ⟨?_, fits⟩), Nat.le_max_right ..⟩
        rw [same, pages]
        exact Nat.le_trans backed.size (Nat.mul_le_mul_right _ (Nat.le_max_left ..))
    · cases success
  · obtain ⟨after, asked⟩ := s.memfdTruncate_backed h backed
    exact ⟨after, fun success => (asked success).symm.le.trans after.size⟩

theorem size_delivered_iff_page :
    5000 ≤ (((boot [] fun _ _ => 0).shmGet 5000).segments 0).numPages * pageSize :=
  ((size_delivered_iff 5000 (by decide)).2.1 (boot [] fun _ _ => 0) 0 rfl
    (by decide +kernel)).mpr (by decide)

/-- A segment of 4 GiB less one byte is created and has no page. -/
theorem segment_without_pages :
    ∃ s : Machine, ((s.shmGet (2 ^ 32 - 1)).segments 0).valid = true ∧
      (s.segments 0).valid = false ∧ ((s.shmGet (2 ^ 32 - 1)).segments 0).numPages = 0 :=
  ⟨boot [] fun _ _ => 0, by decide +kernel⟩

end CactKernel.Memory
