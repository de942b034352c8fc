import CactKernel.Memory.CopyChains

/-! # Releasing an address space as a chain

`vmm_free_address_space` frees the frames and leaves the entries as they are, since
the whole directory goes at the end. In the chain each entry is cleared when its
frame is released, so the two agree on everything but the directory until it is
dropped. -/

set_option autoImplicit false

namespace CactKernel.Memory

open Lib Mem Function Nat Steps Micro

variable {sc : Scope} {w : World} {d : DirId} {v i f : Nat} {dir : Directory} {m : Mem}
  {entries : Nat → Pte}

/-- A directory whose table `i` has the given contents. -/
def Directory.withTable (dir : Directory) (i : Nat) (t : Table) : Directory :=
  dir.setPde i { dir.pde i with table := t }

theorem Directory.withTable_self : dir.withTable i (dir.pde i).table = dir := by
  simp [Directory.withTable, Directory.setPde]

theorem Directory.withTable_withTable (t t' : Table) :
    (dir.withTable i t).withTable i t' = dir.withTable i t' := by
  simp [Directory.withTable, Directory.setPde]

theorem Directory.table_withTable (t : Table) (k : Nat) :
    ((dir.withTable i t).pde k).table = if k = i then t else (dir.pde k).table := by
  simp only [Directory.withTable, Directory.setPde, update_apply]
  split
  · rfl
  · rfl

theorem setPte_putDir (table : (dir.pde (v / 1024)).table = .own f entries) (e : Pte) :
    (m.putDir d dir).setPte d v e =
      m.putDir d (dir.withTable (v / 1024) (.own f (update entries (v % 1024) e))) := by
  simp [setPte, putDir, table, setPde, Directory.withTable, Directory.setPde]

/-- The first `j` entries of the table are released. -/
def EntriesFreed (sc : Scope) (w : World) (d : DirId) (dir : Directory) (i f : Nat)
    (entries : Nat → Pte) (j : Nat) (m : Mem) : Prop :=
  ∃ es, (∀ k < j, (es k).holds = false) ∧ (∀ k, j ≤ k → es k = entries k) ∧
    Steps sc { w with mem := w.mem.putDir d dir }
      { w with mem := m.putDir d (dir.withTable i (.own f es)) }

theorem EntriesFreed.next {j : Nat} (freed : EntriesFreed sc w d dir i f entries j m)
    (small : j < 1024) (pages : (entries j).holds = true → sc.pages (1024 * i + j)) :
    EntriesFreed sc w d dir i f entries (j + 1)
      (if (entries j).holds then m.freePage (entries j).frame else m) := by
  obtain ⟨es, bare, rest, steps⟩ := freed
  have page : (1024 * i + j) / 1024 = i ∧ (1024 * i + j) % 1024 = j := by omega
  have tableNow : ((dir.withTable i (.own f es)).pde ((1024 * i + j) / 1024)).table =
      .own f es := by
    rw [page.1, Directory.table_withTable, if_pos rfl]
  have own : (m.putDir d (dir.withTable i (.own f es))).ownPte d (1024 * i + j) =
      some (entries j) := by
    have here : (m.putDir d (dir.withTable i (.own f es))).dirs d =
        some (dir.withTable i (.own f es)) := by simp [putDir]
    rw [ownPte_of_table here tableNow, page.2,
      rest j le_rfl]
  by_cases holds : (entries j).holds = true
  · refine ⟨update es j .null, ?_, ?_, ?_⟩
    · intro k near
      rw [update_apply]
      split
      · rfl
      · rename_i other
        exact bare k (lt_of_le_of_ne (le_of_lt_succ near) other)
    · intro k later
      rw [update_of_ne (ne_of_gt later)]
      exact rest k (le_of_succ_le later)
    · have released := Steps.page (pages holds)
        (release (w := { w with mem := m.putDir d (dir.withTable i (.own f es)) }) own holds
          Pte.inert_null)
      have result := setPte_putDir (m := m.freePage (entries j).frame) (d := d) tableNow .null
      rw [page.1, page.2, Directory.withTable_withTable] at result
      simp only [holds, if_true]
      rw [← result]
      exact steps.trans released
  · refine ⟨es, ?_, fun k later => rest k (le_of_succ_le later), ?_⟩
    · intro k near
      rcases Nat.lt_succ_iff_lt_or_eq.mp near with earlier | same
      · exact bare k earlier
      · rw [same, rest j le_rfl]
        exact Bool.eq_false_of_not_eq_true holds
    · simp only [holds]
      exact steps

theorem freeEntries_steps (table : (dir.pde i).table = .own f entries)
    (pages : ∀ j < 1024, (entries j).holds = true → sc.pages (1024 * i + j)) :
    EntriesFreed sc w d dir i f entries 1024 (w.mem.freeEntries entries) := by
  refine countTo_invariant (EntriesFreed sc w d dir i f entries) ?_ ?_
  · refine ⟨entries, nofun, fun _ _ => rfl, ?_⟩
    rw [← table, Directory.withTable_self]
    exact refl
  · intro j m small freed
    exact freed.next small (pages j small)

theorem freeTable_steps (pages : ∀ f es, (dir.pde i).table = .own f es →
      ∀ j < 1024, (es j).holds = true → sc.pages (1024 * i + j)) :
    Steps sc { w with mem := m.putDir d dir }
      { w with mem := (m.freeTable (dir.pde i)).putDir d (dir.withTable i .kernel) } := by
  unfold freeTable
  split
  · rename_i table
    rw [← table, Directory.withTable_self]
    exact refl
  rename_i f entries table
  obtain ⟨es, bare, -, steps⟩ := freeEntries_steps (w := { w with mem := m }) (d := d) table
    (pages f entries table)
  refine steps.trans ?_
  have here : ((m.freeEntries entries).putDir d (dir.withTable i (.own f es))).dirs d =
      some (dir.withTable i (.own f es)) := by simp [putDir]
  have folded := fold
    (w := { w with mem := (m.freeEntries entries).putDir d (dir.withTable i (.own f es)) }) here
    (by rw [Directory.table_withTable, if_pos rfl]) bare
  rw [setPde_of_dir here] at folded
  have result : (((m.freeEntries entries).putDir d (dir.withTable i (.own f es))).putDir d
      ((dir.withTable i (.own f es)).withTable i .kernel)).freePage f =
        ((m.freeEntries entries).freePage f).putDir d (dir.withTable i .kernel) := by
    rw [Directory.withTable_withTable]
    simp [putDir, Mem.freePage]
  have last : Steps sc _ _ := plain folded
  change Steps sc _ { w with mem := (((m.freeEntries entries).putDir d _).putDir d
    ((dir.withTable i (.own f es)).withTable i .kernel)).freePage f } at last
  rw [result] at last
  exact last

def TablesFreed (sc : Scope) (w : World) (d : DirId) (dir : Directory) (i : Nat) (m : Mem) : Prop :=
  ∃ dir', dir'.frame = dir.frame ∧ (∀ k, i ≤ k → dir'.pde k = dir.pde k) ∧
    (∀ k < i, (dir'.pde k).table = .kernel) ∧ Steps sc w { w with mem := m.putDir d dir' }

theorem TablesFreed.next (freed : TablesFreed sc w d dir i m)
    (pages : ∀ f es, (dir.pde i).table = .own f es →
      ∀ j < 1024, (es j).holds = true → sc.pages (1024 * i + j)) :
    TablesFreed sc w d dir (i + 1) (m.freeTable (dir.pde i)) := by
  obtain ⟨dir', frame, rest, bare, steps⟩ := freed
  rw [← rest i le_rfl] at pages ⊢
  refine ⟨dir'.withTable i .kernel, frame, ?_, ?_, steps.trans (freeTable_steps pages)⟩
  · intro k later
    rw [← rest k (le_of_succ_le later)]
    simp only [Directory.withTable, Directory.setPde]
    rw [update_of_ne (ne_of_gt later)]
  · intro k near
    rw [Directory.table_withTable]
    split
    · rfl
    · rename_i other
      exact bare k (lt_of_le_of_ne (le_of_lt_succ near) other)

theorem vmmFreeAddressSpace_steps (tidy : Tidy w.mem) (closes : sc.closes d)
    (pages : ∀ v e, w.mem.ownPte d v = some e → e.holds = true → sc.pages v) :
    Steps sc w { w with mem := w.mem.vmmFreeAddressSpace d } := by
  unfold vmmFreeAddressSpace
  split
  · exact refl
  rename_i dir here
  have start : TablesFreed sc w d dir 0 w.mem := by
    refine ⟨dir, rfl, fun _ _ => rfl, nofun, ?_⟩
    simp only [putDir, ← here, update_eq_self]
    exact refl
  have whole := countTo_invariant (TablesFreed sc w d dir) (n := pdKernelEntries) start
    fun i m _ freed => freed.next fun f es table j near holds => by
      have page : (1024 * i + j) / 1024 = i ∧ (1024 * i + j) % 1024 = j := by omega
      refine pages (1024 * i + j) (es j) ?_ holds
      rw [ownPte_of_table here (by rw [page.1]; exact table), page.2]
  obtain ⟨dir', frame, rest, bare, steps⟩ := whole
  generalize countTo (fun i m => m.freeTable (dir.pde i)) pdKernelEntries w.mem = freed at steps ⊢
  have allBare : ∀ k, (dir'.pde k).table = .kernel := by
    intro k
    by_cases small : k < pdKernelEntries
    · exact bare k small
    rw [rest k (Nat.le_of_not_lt small), ← ownTable_none here]
    cases table : w.mem.ownTable d k with
    | none => rfl
    | some f => exact absurd (tidy.low d k f table) small
  have closed : Micro { closes := some d } { w with mem := freed.putDir d dir' }
      { w with mem := ((freed.putDir d dir').freePage dir'.frame).dropDir d } :=
    closeDir (by simp [putDir]) allBare
  have result : ((freed.putDir d dir').freePage dir'.frame).dropDir d =
      { freed.freePage dir.frame with dirs := update freed.dirs d none } := by
    simp [putDir, dropDir, Mem.freePage, frame]
  rw [result] at closed
  exact steps.trans (single (Label.within_closes closes) closed)

end CactKernel.Memory
