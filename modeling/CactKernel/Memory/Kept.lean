import CactKernel.Memory.World

/-! # What every small change keeps

`Tidy` is what the functions rely on: private entries are well formed, private
tables lie below the PCI hole, and the kernel's tables hold no user page of the
process range. `Spared ref pages` says that the given pages have the entries of
`ref` in every directory; it is kept by all changes of other pages. -/

set_option autoImplicit false

namespace CactKernel.Memory

open Lib Mem Or Steps Micro

structure Tidy (m : Mem) : Prop where
  entries : ∀ d v e, m.ownPte d v = some e → e.Proper
  low : ∀ d i f, m.ownTable d i = some f → i < pdKernelEntries
  kernel : ∀ v, (m.kernel v).flags.cow = false ∧ (m.kernel v).flags.demand = false ∧
    (v < totalPages → (m.kernel v).flags.user = false)

theorem kalloc_eq {m m' : Mem} {r : Option Nat} (run : m.kalloc = (r, m')) :
    m.pmm.kalloc.1 = r ∧ m' = { m with pmm := m.pmm.kalloc.2 } := by
  cases run
  exact ⟨rfl, rfl⟩

theorem allocStacks_eq {m : Mem} {x : Stacks} {ok : Bool} (run : m.allocStacks = (ok, x)) :
    ∃ pmm, x.mem = { m with pmm } := by
  have loop : ∀ n, ∃ pmm, (countWhile allocStack n ⟨m, fun _ => 0⟩).2.mem = { m with pmm } := by
    intro n
    induction n with
    | zero => exact ⟨_, rfl⟩
    | succ n ih =>
      rw [countWhile]
      split
      · rename_i y before
        rw [before] at ih
        obtain ⟨pmm, same⟩ := ih
        change y.mem = _ at same
        rw [allocStack, same]
        split
        · rename_i taken
          exact ⟨_, (kalloc_eq taken).2⟩
        · rename_i taken
          exact ⟨_, (kalloc_eq taken).2⟩
      · rename_i y before
        rw [before] at ih
        exact ih
  have whole := loop userStackPages
  rw [show countWhile allocStack userStackPages ⟨m, fun _ => 0⟩ = (ok, x) from run] at whole
  exact whole

variable {e : Pte} {l : Label} {w w' : World} {sc : Scope}

theorem Pte.holds_user (holds : e.holds = true) : e.flags.user = true := by
  unfold Pte.holds at holds
  exact (Bool.and_eq_true_iff.mp holds).2

theorem Pte.holds_present (holds : e.holds = true) : e.flags.present = true := by
  unfold Pte.holds at holds
  exact (Bool.and_eq_true_iff.mp holds).1

theorem Pte.Proper.of_holds (holds : e.holds = true) : e.Proper :=
  ⟨fun _ => holds, fun _ => Pte.holds_user holds⟩

theorem Pte.inert_null : Pte.null.Inert := by
  refine ⟨rfl, ?_, ?_⟩
  · intro cow
    exact absurd cow (by decide)
  · intro demand
    exact absurd demand (by decide)

namespace Tidy

variable {m m' : Mem} {d : DirId} {v i f : Nat} {e old : Pte} {dir : Directory}

theorem inert_kernel (tidy : Tidy m) (low : v < totalPages) : (m.kernel v).Inert := by
  obtain ⟨cow, demand, user⟩ := tidy.kernel v
  refine ⟨?_, ?_, ?_⟩
  · simp [Pte.holds, user low]
  · intro isCow
    exact absurd isCow (by simp [cow])
  · intro isDemand
    exact absurd isDemand (by simp [demand])

end Tidy

/-! ## Entries -/

/-- What a small change makes of the entries: a private one stays, is well formed at the page of
the change, or copies the kernel's; one of the kernel stays or is simple. -/
structure Entries (l : Label) (m m' : Mem) : Prop where
  own : ∀ d v e, m'.ownPte d v = some e → m.ownPte d v = some e ∨ l.page = some v ∧ e.Proper ∨
    v < totalPages ∧ e = m.kernel v
  table : ∀ d i f, m'.ownTable d i = some f → m.ownTable d i = some f ∨ i < pdKernelEntries
  kernel : ∀ v, m'.kernel v = m.kernel v ∨ l.page = some v ∧ (m'.kernel v).flags.cow = false ∧
    (m'.kernel v).flags.demand = false ∧ (v < totalPages → (m'.kernel v).flags.user = false) ∧
    (l.kind = .plain → (m'.kernel v).holds = false)

namespace Entries

variable {m m' n n' : Mem} {d : DirId} {v i : Nat} {e old : Pte} {dir : Directory}

theorem refl : Entries l m m :=
  ⟨fun _ _ _ own => inl own, fun _ _ _ own => inl own, fun _ => inl rfl⟩

theorem congr (entries : Entries l m m') (dirs : n.dirs = m.dirs) (kernel : n.kernel = m.kernel)
    (dirs' : n'.dirs = m'.dirs) (kernel' : n'.kernel = m'.kernel) : Entries l n n' := by
  obtain ⟨own, table, same⟩ := entries
  constructor
  · simpa only [ownPte, dirs, dirs', kernel] using own
  · simpa only [ownTable, dirs, dirs'] using table
  · simpa only [kernel, kernel'] using same

theorem setPte (own : m.ownPte d v = some old) (page : l.page = some v) (proper : e.Proper) :
    Entries l m (m.setPte d v e) := by
  refine ⟨?_, ?_, ?_⟩
  · intro d' v' e' own'
    rw [ownPte_setPte own] at own'
    split at own'
    · rename_i same
      cases own'
      exact inr (inl ⟨same.2 ▸ page, proper⟩)
    · exact inl own'
  · intro d' i f table
    rw [ownTable_setPte own] at table
    exact inl table
  · rw [kernel_setPte own]
    exact fun _ => inl rfl

theorem putDir (own : ∀ v e, dir.ownPte v = some e → m.ownPte d v = some e)
    (table : ∀ i f, dir.ownTable i = some f → m.ownTable d i = some f) :
    Entries l m (m.putDir d dir) := by
  refine ⟨?_, ?_, fun _ => inl rfl⟩
  · intro d' v e own'
    rw [ownPte_putDir] at own'
    split at own'
    · rename_i same
      exact inl (same ▸ own v e own')
    · exact inl own'
  · intro d' i f table'
    rw [ownTable_putDir] at table'
    split at table'
    · rename_i same
      exact inl (same ▸ table i f table')
    · exact inl table'

theorem dropDir : Entries l m (m.dropDir d) := by
  refine ⟨?_, ?_, fun _ => inl rfl⟩
  · intro d' v e own
    rw [ownPte_dropDir] at own
    split at own
    · cases own
    · exact inl own
  · intro d' i f table
    rw [ownTable_dropDir] at table
    split at table
    · cases table
    · exact inl table

theorem putKernel (page : l.page = some v) (simple : e.flags.cow = false ∧ e.flags.demand = false ∧
      (v < totalPages → e.flags.user = false) ∧ (l.kind = .plain → e.holds = false)) :
    Entries l m (m.putKernel v e) := by
  refine ⟨fun _ _ _ own => inl own, fun _ _ _ own => inl own, fun u => ?_⟩
  simp only [Mem.putKernel, Function.update_apply]
  split
  · rename_i same
    rw [same]
    exact inr ⟨page, simple⟩
  · exact inl rfl

/-- A private copy of a kernel table has its entries, and a table that is given up leaves them. -/
theorem setPde (here : m.dirs d = some dir) {p : Pde} (copy : ∀ f es, p.table = .own f es →
      i < pdKernelEntries ∧ es = fun j => m.kernel (1024 * i + j)) :
    Entries l m (m.setPde d i p) := by
  refine ⟨?_, ?_, ?_⟩
  · intro d' v e own
    rw [ownPte_setPde here] at own
    split at own
    · rename_i same
      split at own
      · cases own
      rename_i f es table
      obtain ⟨low, rfl⟩ := copy f es table
      cases own
      unfold pdKernelEntries at low
      refine inr (inr ⟨by unfold totalPages; omega, ?_⟩)
      rw [← same.2]
      exact congrArg m.kernel (Nat.div_add_mod v 1024)
    · exact inl own
  · intro d' j f table
    rw [ownTable_setPde here] at table
    split at table
    · rename_i same
      split at table
      · cases table
      rename_i g es isOwn
      exact inr (same.2 ▸ (copy g es isOwn).1)
    · exact inl table
  · rw [setPde_of_dir here]
    exact fun _ => inl rfl

end Entries

variable {dir : Directory} {pde : Nat → Pde}

theorem Directory.ownPte_reflag (same : ∀ i, (pde i).table = (dir.pde i).table) (v : Nat) :
    Directory.ownPte { dir with pde } v = dir.ownPte v := by
  simp only [Directory.ownPte, same]

theorem Directory.ownTable_reflag (same : ∀ i, (pde i).table = (dir.pde i).table) (i : Nat) :
    Directory.ownTable { dir with pde } i = dir.ownTable i := by
  simp only [Directory.ownTable, same]

theorem Micro.entries (micro : Micro l w w') : Entries l w.mem w'.mem := by
  cases micro with
  | alloc run | starve run =>
    obtain ⟨-, rfl⟩ := kalloc_eq run
    exact Entries.refl.congr rfl rfl rfl rfl
  | fill f bytes | bump f | discard inHand
  | unpin pinned => exact (Entries.refl (m := w.mem)).congr rfl rfl rfl rfl
  | abandon inHand | pin free inHand | reshare d pages => exact .refl
  | openDir absent inHand =>
    refine .putDir ?_ ?_
    · intro v e own
      exact absurd own (by simp [Directory.ownPte, kernelPde])
    · intro i f table
      exact absurd table (by simp [Directory.ownTable, kernelPde])
  | closeDir here bare => exact (Entries.dropDir (m := w.mem)).congr rfl rfl rfl rfl
  | forget d => exact .dropDir
  | reflag here same =>
    refine .putDir ?_ ?_
    · intro v e own
      rw [Directory.ownPte_reflag same] at own
      simpa [ownPte, here] using own
    · intro i f table
      rw [Directory.ownTable_reflag same] at table
      simpa [ownTable, here] using table
  | privatise user rw here shared low inHand =>
    refine .setPde here ?_
    intro f es table
    cases table
    exact ⟨low, rfl⟩
  | fold here own bare =>
    refine (Entries.setPde here ?_).congr rfl rfl rfl rfl
    intro f es table
    cases table
  | clear own inert => exact .setPte own rfl inert.2
  | @release _ d v old e own holds inert =>
    exact (Entries.setPte (m := w.mem.freePage old.frame) own rfl inert.2).congr rfl rfl rfl rfl
  | share own source elsewhere settled notPrivate holds writable =>
    exact (Entries.setPte own rfl (.of_holds holds)).congr rfl rfl rfl rfl
  | install own inHand holds | protect own before holds | adopt own holds
  | borrow own holds => exact .setPte own rfl (.of_holds holds)
  | kernelClear v => exact .putKernel rfl ⟨rfl, rfl, fun _ => rfl, fun _ => rfl⟩
  | kernelBorrow high simple =>
    refine .putKernel rfl ⟨simple.1, simple.2, fun low => absurd low (Nat.not_lt.mpr high), ?_⟩
    intro plain
    cases plain

theorem Micro.tidy (micro : Micro l w w') (tidy : Tidy w.mem) : Tidy w'.mem := by
  refine ⟨?_, ?_, ?_⟩
  · intro d v e own
    rcases micro.entries.own d v e own with old | ⟨-, proper⟩ | ⟨low, rfl⟩
    · exact tidy.entries d v e old
    · exact proper
    · exact (tidy.inert_kernel low).2
  · intro d i f table
    rcases micro.entries.table d i f table with old | low
    · exact tidy.low d i f old
    · exact low
  · intro v
    rcases micro.entries.kernel v with same | ⟨-, cow, demand, user, -⟩
    · rw [same]
      exact tidy.kernel v
    · exact ⟨cow, demand, user⟩

theorem Steps.tidy (steps : Steps sc w w') (tidy : Tidy w.mem) : Tidy w'.mem :=
  steps.invariant (fun w => Tidy w.mem) tidy fun _ _ _ _ micro holds => micro.tidy holds

/-! ## Pages that are left alone -/

/-- The given pages have their entries of `ref` in the kernel's tables and in all private ones. -/
structure Spared (ref : Nat → Pte) (pages : Nat → Prop) (m : Mem) : Prop where
  kernel : ∀ v, pages v → m.kernel v = ref v
  entries : ∀ d v e, pages v → m.ownPte d v = some e → e = ref v

variable {ref : Nat → Pte} {pages : Nat → Prop} {m : Mem} {d : DirId} {v : Nat} {dir : Directory}

theorem Spared.pteAt (spared : Spared ref pages m) (here : m.dirs d = some dir) (page : pages v) :
    m.pteAt d v = ref v := by
  cases own : m.ownPte d v with
  | none => rw [pteAt_of_shared here own, spared.kernel v page]
  | some e => rw [pteAt_of_own own, spared.entries d v e page own]

theorem Micro.spared (micro : Micro l w w') (outside : ∀ v, l.page = some v → ¬ pages v)
    (spared : Spared ref pages w.mem) : Spared ref pages w'.mem := by
  refine ⟨?_, ?_⟩
  · intro v page
    rcases micro.entries.kernel v with same | ⟨changed, -⟩
    · rw [same, spared.kernel v page]
    · exact absurd page (outside v changed)
  · intro d v e page own
    rcases micro.entries.own d v e own with old | ⟨changed, -⟩ | ⟨-, rfl⟩
    · exact spared.entries d v e page old
    · exact absurd page (outside v changed)
    · exact spared.kernel v page

/-! ## Which directories exist -/

theorem Micro.roots (micro : Micro l w w') (d : DirId) :
    (w'.mem.root d).isSome = (w.mem.root d).isSome ∨
      (l.opens = some d ∧ (w'.mem.root d).isSome = true) ∨ l.closes = some d := by
  cases micro with
  | alloc run | starve run =>
    obtain ⟨-, rfl⟩ := kalloc_eq run
    exact inl rfl
  | @openDir _ d' f rest absent inHand =>
    by_cases same : d = d'
    · refine inr (inl ⟨by rw [same], ?_⟩)
      rw [root_putDir, if_pos same]
      rfl
    · exact inl (by rw [root_putDir, if_neg same])
  | @closeDir _ d' dir here bare =>
    by_cases same : d = d'
    · exact inr (inr (by rw [same]))
    refine inl ?_
    rw [root_dropDir, if_neg same]
    rfl
  | @forget _ d' =>
    by_cases same : d = d'
    · exact inr (inr (by rw [same]))
    · exact inl (by rw [root_dropDir, if_neg same])
  | @reflag _ d' dir pde here same =>
    refine inl ?_
    rw [root_putDir]
    split
    · rename_i here'
      simp [root, here', here]
    · rfl
  | privatise user rw here shared low inHand => exact inl (by rw [root_setPde here])
  | fold here own bare =>
    refine inl ?_
    change ((Mem.setPde _ _ _ _).root d).isSome = _
    rw [root_setPde here]
  | install own inHand holds | clear own inert | protect own before holds | adopt own holds
  | borrow own holds => exact inl (by rw [root_setPte own])
  | @release _ _ _ old e own holds inert =>
    refine inl ?_
    rw [root_setPte (m := w.mem.freePage old.frame) own]
    rfl
  | share own source elsewhere settled notPrivate holds writable =>
    refine inl ?_
    change ((Mem.setPte _ _ _ _).root d).isSome = _
    rw [root_setPte own]
  | _ => exact inl rfl

theorem Steps.root_isSome (steps : Steps sc w w') {d : DirId} (notOpened : ¬ sc.opens d)
    (notClosed : ¬ sc.closes d) : (w'.mem.root d).isSome = (w.mem.root d).isSome := by
  refine steps.invariant (fun x => (x.mem.root d).isSome = (w.mem.root d).isSome) rfl ?_
  intro l a b within micro same
  rcases micro.roots d with kept | opened | closed
  · rw [kept, same]
  · exact absurd (within.opens d opened.1) notOpened
  · exact absurd (within.closes d closed) notClosed

theorem Steps.root_stays (steps : Steps sc w w') {d : DirId} (notClosed : ¬ sc.closes d)
    (isOpen : (w.mem.root d).isSome = true) : (w'.mem.root d).isSome = true := by
  refine steps.invariant (fun x => (x.mem.root d).isSome = true) isOpen ?_
  intro l a b within micro before
  rcases micro.roots d with kept | opened | closed
  · rw [kept, before]
  · exact opened.2
  · exact absurd (within.closes d closed) notClosed

end CactKernel.Memory
