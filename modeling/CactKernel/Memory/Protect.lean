import CactKernel.Memory.Ledger

/-! # What `do_mprotect` changes

The loop rewrites every present entry of the range, whether or not it lies in the
region that the address was looked up in, and gives each one `PAGE_USER`. -/

set_option autoImplicit false

namespace CactKernel.Memory

open Lib Mem

/-- The entry that `do_mprotect` writes in place of `e`. -/
def Pte.protect (e : Pte) (write : Bool) : Pte :=
  if e.flags.present then ⟨e.frame, userFlags write⟩ else e

@[simp] theorem Pte.protect_protect (e : Pte) (write : Bool) :
    (e.protect write).protect write = e.protect write := by
  unfold Pte.protect
  split <;> simp

theorem Pte.protect_ne {e : Pte} {write : Bool} : e.protect write ≠ e ↔
    e.flags.present = true ∧ e.flags ≠ userFlags write := by
  rw [Pte.protect]
  split
  · rename_i present
    rw [and_iff_right present]
    refine not_congr ⟨fun same => ?_, fun same => ?_⟩
    · rw [← same]
    · rw [← same]
  · rename_i absent
    exact ⟨fun changed => absurd rfl changed, fun both => absurd both.1 absent⟩

namespace Mem

/-- A page of the process, in the range and in a region. -/
def Protectable (m : Mem) (d : DirId) (t : MmapTable) (addr length v : Nat) : Prop :=
  addr ≤ v * pageSize ∧ v * pageSize < addr + length ∧ (m.pteAt d v).flags.user = true ∧ t.Covers v

/-- No other entry of any directory has changed. -/
def Confined (m m' : Mem) (d : DirId) (t : MmapTable) (addr length : Nat) : Prop :=
  ∀ d' v, m'.pteAt d' v ≠ m.pteAt d' v → d' = d ∧ m.Protectable d t addr length v

def protectRound (d : DirId) (addr : Nat) (write : Bool) (i : Nat) (m : Mem) : Bool × Mem :=
  protectPage d (wrapPage (addr / pageSize + i)) write m

/-- The page has a table that may be private, and its round is made and does not fail. -/
abbrev Rewrites (m : Mem) (d : DirId) (addr : Nat) (write : Bool) (n v : Nat) : Prop :=
  ∃ i < n, (countWhile (protectRound d addr write) (i + 1) m).1 = true ∧
    v = wrapPage (addr / pageSize + i) ∧ v / 1024 < pdKernelEntries

variable {m : Mem} {d : DirId} {addr v : Nat} {write : Bool}

theorem pteAt_protectPage (d' : DirId) (u : Nat) : (protectPage d v write m).2.pteAt d' u =
    if d' = d ∧ (protectPage d v write m).1 = true ∧ u = v ∧ u / 1024 < pdKernelEntries
    then (m.pteAt d' u).protect write else m.pteAt d' u := by
  -- the world around the memory plays no part
  obtain ⟨-, prepared, ready⟩ := ensurePrivate_steps (.touching fun _ => True)
    ⟨m, fun _ => none, fun _ _ => True, 0⟩ d (v / 1024) true true
  unfold protectPage ensurePdePrivate
  split
  · rename_i m' run
    rw [run] at prepared ready
    obtain ⟨low, entries⟩ := ready rfl
    obtain ⟨e, own⟩ := entries v rfl
    dsimp only
    rw [prepared.same]
    by_cases present : (m.pteAt d v).flags.present = true
    · rw [if_pos present, pteAt_setPte own, prepared.same]
      by_cases here : d' = d ∧ u = v
      · obtain ⟨rfl, rfl⟩ := here
        simp [low, present, Pte.protect]
      · rw [if_neg here, if_neg fun all => here ⟨all.1, all.2.2.1⟩]
    · rw [if_neg present, prepared.same, eq_comm, ite_eq_right_iff]
      rintro ⟨rfl, -, rfl, -⟩
      simp [present, Pte.protect]
  · rename_i m' run
    rw [run] at prepared
    rw [prepared.same, eq_comm, ite_eq_right_iff]
    rintro ⟨rfl, -, rfl, low⟩
    rcases (ensurePrivate_mmio run).2 with absent | high
    · simp [pteAt, absent, Pte.null, Pte.protect]
    · exact absurd low (Nat.not_lt.mpr high)
  · rename_i m' run
    rw [run] at prepared
    rw [if_neg (by simp), prepared.same]

theorem pteAt_protectRounds (n : Nat) (d' : DirId) (u : Nat) :
    (countWhile (protectRound d addr write) n m).2.pteAt d' u =
      if d' = d ∧ m.Rewrites d addr write n u then (m.pteAt d' u).protect write
      else m.pteAt d' u := by
  induction n with
  | zero =>
    rw [if_neg]
    · rfl
    · rintro ⟨-, i, none, -⟩
      cases none
  | succ n ih =>
    have more : m.Rewrites d addr write (n + 1) u ↔ m.Rewrites d addr write n u ∨
        (countWhile (protectRound d addr write) (n + 1) m).1 = true ∧
          u = wrapPage (addr / pageSize + n) ∧ u / 1024 < pdKernelEntries := by
      simp only [Rewrites, Nat.lt_succ_iff_lt_or_eq, or_and_right, exists_or, exists_eq_left]
    simp only [more]
    cases before : countWhile (protectRound d addr write) n m with
    | mk ok t =>
      rw [before] at ih
      cases ok with
      | false => simp [countWhile, before, ih]
      | true =>
        have round : countWhile (protectRound d addr write) (n + 1) m =
            protectPage d (wrapPage (addr / pageSize + n)) write t := by
          rw [countWhile, before]
          rfl
        rw [round, pteAt_protectPage, ih]
        by_cases mine : d' = d ∧ m.Rewrites d addr write n u
        · simp [mine]
        · rw [if_neg mine]
          refine if_congr ?_ rfl rfl
          rw [and_or_left, or_iff_right mine]

theorem ensurePrivate_oom {m' : Mem} {i : Nat} {user rw : Bool}
    (run : m.ensurePrivate d i user rw = (.oom, m')) : m'.pmm.exhausted = true := by
  unfold ensurePrivate at run
  split at run
  · cases run
  rename_i dir there
  split at run
  · cases run
  split at run
  · cases run
  rw [privatise, there] at run
  cases taken : m.kalloc with
  | mk frame left =>
    rw [taken] at run
    cases frame with
    | some pt => cases run
    | none =>
      cases run
      obtain ⟨none, rfl⟩ := kalloc_eq taken
      exact congrArg Pmm.exhausted (Pmm.kalloc_none (Prod.ext none rfl)).2

theorem protectPage_failed (failed : (protectPage d v write m).1 = false) :
    (protectPage d v write m).2.pmm.exhausted = true := by
  unfold protectPage ensurePdePrivate at failed ⊢
  cases run : m.ensurePrivate d (v / 1024) true true with
  | mk result left =>
    rw [run] at failed
    cases result with
    | ok | kernelMmio => cases failed
    | oom => exact ensurePrivate_oom run

theorem protectRounds_failed {n : Nat}
    (failed : (countWhile (protectRound d addr write) n m).1 = false) :
    (countWhile (protectRound d addr write) n m).2.pmm.exhausted = true := by
  have left := countWhile_invariant (f := protectRound d addr write) (fun _ _ => True)
    (fun _ m => m.pmm.exhausted = true) (n := n) (s := m) trivial ?_
  · rw [failed, if_neg Bool.false_ne_true] at left
    obtain ⟨_, _, exhausted⟩ := left
    exact exhausted
  · intro i m _ _
    split
    · trivial
    · rename_i round
      exact protectPage_failed (Bool.eq_false_iff.mpr round)

/-- The present entries of the range, in tables that may be private, are those of pages that the
call may change, or have the flags already. -/
def MprotectSpares (m : Mem) (d : DirId) (t : MmapTable) (addr length : Nat) (write : Bool)
    (brkStart brkEnd : Nat) : Prop :=
  length ≠ 0 → addr % pageSize = 0 → mprotectTest t (addr / pageSize) brkStart brkEnd = true →
    ∀ i < pagesOf length, ∀ v, v = wrapPage (addr / pageSize + i) → v / 1024 < pdKernelEntries →
      (m.pteAt d v).flags.present = true → (m.pteAt d v).flags ≠ userFlags write →
        m.Protectable d t addr length v

/-- The changes are confined when the range is spared; and when no allocation fails, only then. -/
theorem mprotect_confined (m : Mem) (d : DirId) (t : MmapTable) (addr length : Nat)
    (write : Bool) (brkStart brkEnd : Nat) :
    (m.MprotectSpares d t addr length write brkStart brkEnd →
      m.Confined (m.doMprotect d t addr length write brkStart brkEnd) d t addr length) ∧
    ((m.doMprotect d t addr length write brkStart brkEnd).pmm.exhausted = false →
      m.Confined (m.doMprotect d t addr length write brkStart brkEnd) d t addr length →
        m.MprotectSpares d t addr length write brkStart brkEnd) := by
  have refused : m.Confined m d t addr length := fun d' v changed => absurd rfl changed
  unfold doMprotect
  split
  · rename_i bad
    refine ⟨fun _ => refused, fun _ _ some aligned => ?_⟩
    exact absurd bad (not_or.mpr ⟨some, not_not.mpr aligned⟩)
  rename_i good
  split
  · rename_i unknown
    refine ⟨fun _ => refused, fun _ _ _ _ found => ?_⟩
    simp [found] at unknown
  rename_i known
  obtain ⟨some, aligned⟩ := not_or.mp good
  change (_ → m.Confined (countWhile (protectRound d addr write) (pagesOf length) m).2 d t _ _) ∧
    ((countWhile (protectRound d addr write) (pagesOf length) m).2.pmm.exhausted = false →
      m.Confined (countWhile (protectRound d addr write) (pagesOf length) m).2 d t _ _ → _)
  constructor
  · intro spares d' v changed
    rw [pteAt_protectRounds] at changed
    split at changed
    · rename_i rewritten
      obtain ⟨rfl, i, small, -, page, low⟩ := rewritten
      obtain ⟨present, other⟩ := Pte.protect_ne.mp changed
      exact ⟨rfl, spares some (not_not.mp aligned) (by simpa using known) i small v page low
        present other⟩
    · exact absurd rfl changed
  · intro enough confined _ _ _ i small v page low present other
    have whole : (countWhile (protectRound d addr write) (pagesOf length) m).1 = true := by
      rw [← Bool.not_eq_false]
      intro failed
      cases enough.symm.trans (protectRounds_failed failed)
    refine (confined d v ?_).2
    rw [pteAt_protectRounds, if_pos ⟨rfl, i, small, countWhile_whole whole small, page, low⟩]
    exact Pte.protect_ne.mpr ⟨present, other⟩

/-- The rights of the one page of a region are taken away: no other entry changes. -/
theorem mprotect_confined_one_page : ∃ s : Machine, Reach Machine.Booted Machine.Step s ∧
    ∃ t, s.tasks 2 = some t ∧ (s.mem.pteAt (2, t.gen) 0x3011).flags = userFlags true ∧
      ((s.mem.doMprotect (2, t.gen) t.table 0x3011000 4096 false t.brkStart
        (pagesOf t.brkCurrent * pageSize)).pteAt (2, t.gen) 0x3011).flags = userFlags false ∧
      s.mem.Confined (s.mem.doMprotect (2, t.gen) t.table 0x3011000 4096 false t.brkStart
        (pagesOf t.brkCurrent * pageSize)) (2, t.gen) t.table 0x3011000 4096 := by
  obtain ⟨s, reached, found⟩ := Reach.exists_of_run Machine.Booted Machine.step
    (fun _ _ _ move => move) ⟨[], fun _ _ => 0, rfl⟩
    (Machine.takesNextFrame.take 2 ++ [.fault 2 0x3011 true])
    (fun s => (s.tasks 2).any (fun t => decide (
      (s.mem.pteAt (2, t.gen) 0x3011).flags = userFlags true ∧
      ((s.mem.doMprotect (2, t.gen) t.table 0x3011000 4096 false t.brkStart
        (pagesOf t.brkCurrent * pageSize)).pteAt (2, t.gen) 0x3011).flags = userFlags false ∧
      (t.table.regions 0).covers 0x3011)) = true)
    (by decide +kernel)
  rw [Option.any_eq_true] at found
  obtain ⟨t, task, facts⟩ := found
  obtain ⟨before, after, region⟩ := of_decide_eq_true facts
  refine ⟨s, reached, t, task, before, after, (mprotect_confined _ _ _ _ _ _ _ _).1 ?_⟩
  intro _ _ _ i small v page _ _ _
  have first : i = 0 := by
    have one : pagesOf 4096 = 1 := by decide
    omega
  have mine : v = 0x3011 := by
    rw [page, first]
    decide
  rw [mine]
  exact ⟨by decide, by decide, by rw [before]; rfl, 0, region⟩

/-- The second page of the range is the kernel's, behind the region. -/
theorem mprotect_takes_kernel_page : ∃ s : Machine, Reach Machine.Booted Machine.Step s ∧
    ∃ t, s.tasks 2 = some t ∧ ¬ s.mem.Confined (s.mem.doMprotect (2, t.gen) t.table 0x3011000 8192
      true t.brkStart (pagesOf t.brkCurrent * pageSize)) (2, t.gen) t.table 0x3011000 8192 := by
  obtain ⟨s, reached, found⟩ := Reach.exists_of_run Machine.Booted Machine.step
    (fun _ _ _ move => move) ⟨[], fun _ _ => 0, rfl⟩ (Machine.takesNextFrame.take 2)
    (fun s => (s.tasks 2).any (fun t => decide ((s.mem.pteAt (2, t.gen) 0x3012).flags.user = false ∧
      ((s.mem.doMprotect (2, t.gen) t.table 0x3011000 8192 true t.brkStart
        (pagesOf t.brkCurrent * pageSize)).pteAt (2, t.gen) 0x3012).flags.user = true)) = true)
    (by decide +kernel)
  rw [Option.any_eq_true] at found
  obtain ⟨t, task, facts⟩ := found
  obtain ⟨before, after⟩ := of_decide_eq_true facts
  refine ⟨s, reached, t, task, fun confined => ?_⟩
  obtain ⟨-, -, -, user, -⟩ :=
    confined (2, t.gen) 0x3012 fun same => by simp [same, before] at after
  rw [before] at user
  cases user

end Mem

end CactKernel.Memory
