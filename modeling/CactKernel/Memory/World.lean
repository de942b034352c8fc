import CactKernel.Memory.Process
import CactKernel.Lib.RefCount

/-! # What the memory code can do, step by step

Every function of the memory code is a chain of small changes: a frame is taken,
a table becomes private, an entry is installed, shared, released, and so on.
`Micro` lists them with what each may assume; the functions are shown to be such
chains once, and what a run preserves is shown for `Micro` once.

`World` adds two ghosts to the memory: the frames that the code has taken and not
yet placed (`hand`), and the pages of a directory that lie in `MAP_SHARED`
regions (`shared`). -/

set_option autoImplicit false

namespace CactKernel.Memory

open Lib Option Function

/-! ## Private entries -/

/-- The entry of page `v` if its table is private. -/
def Directory.ownPte (dir : Directory) (v : Nat) : Option Pte :=
  match (dir.pde (v / 1024)).table with
  | .kernel => none
  | .own _ entries => some (entries (v % 1024))

/-- The frame of a private table. -/
def Directory.ownTable (dir : Directory) (i : Nat) : Option Nat :=
  match (dir.pde i).table with
  | .kernel => none
  | .own f _ => some f

def Directory.setPde (dir : Directory) (i : Nat) (p : Pde) : Directory :=
  { dir with pde := update dir.pde i p }

/-- A directory entry whose table has one entry replaced. -/
def Pde.withEntry (p : Pde) (f : Nat) (entries : Nat → Pte) (j : Nat) (e : Pte) : Pde :=
  { p with table := .own f (update entries j e) }

namespace Mem

variable {m : Mem} {d d' : DirId} {v v' i : Nat} {e old : Pte} {dir dir' : Directory}

def ownPte (m : Mem) (d : DirId) (v : Nat) : Option Pte := (m.dirs d).bind fun dir => dir.ownPte v

def ownTable (m : Mem) (d : DirId) (i : Nat) : Option Nat :=
  (m.dirs d).bind fun dir => dir.ownTable i

def root (m : Mem) (d : DirId) : Option Nat := (m.dirs d).map Directory.frame

/-- Replaces a directory. -/
def putDir (m : Mem) (d : DirId) (dir : Directory) : Mem :=
  { m with dirs := update m.dirs d (some dir) }

def dropDir (m : Mem) (d : DirId) : Mem := { m with dirs := update m.dirs d none }

/-- Writes an entry of the kernel's tables. -/
def putKernel (m : Mem) (v : Nat) (e : Pte) : Mem :=
  { m with kernel := update m.kernel v e }

theorem ownPte_putDir :
    (m.putDir d dir).ownPte d' v = if d' = d then dir.ownPte v else m.ownPte d' v := by
  simp only [ownPte, putDir, update_apply]
  split
  · rfl
  · rfl

theorem ownTable_putDir :
    (m.putDir d dir).ownTable d' i = if d' = d then dir.ownTable i else m.ownTable d' i := by
  simp only [ownTable, putDir, update_apply]
  split
  · rfl
  · rfl

theorem root_putDir : (m.putDir d dir).root d' = if d' = d then some dir.frame else m.root d' := by
  simp only [root, putDir, update_apply]
  split
  · rfl
  · rfl

theorem ownPte_dropDir :
    (m.dropDir d).ownPte d' v = if d' = d then none else m.ownPte d' v := by
  simp only [ownPte, dropDir, update_apply]
  split
  · rfl
  · rfl

theorem ownTable_dropDir :
    (m.dropDir d).ownTable d' i = if d' = d then none else m.ownTable d' i := by
  simp only [ownTable, dropDir, update_apply]
  split
  · rfl
  · rfl

theorem root_dropDir : (m.dropDir d).root d' = if d' = d then none else m.root d' := by
  simp only [root, dropDir, update_apply]
  split
  · rfl
  · rfl

theorem ownPte_eq_some (own : m.ownPte d v = some e) :
    ∃ dir f entries, m.dirs d = some dir ∧ (dir.pde (v / 1024)).table = .own f entries ∧
      entries (v % 1024) = e := by
  obtain ⟨dir, here, entry⟩ := bind_eq_some_iff.mp own
  unfold Directory.ownPte at entry
  split at entry
  · cases entry
  · rename_i f entries table
    exact ⟨dir, f, entries, here, table, some.inj entry⟩

theorem pteAt_of_own (own : m.ownPte d v = some e) : m.pteAt d v = e := by
  obtain ⟨dir, f, entries, here, table, entry⟩ := ownPte_eq_some own
  simp only [pteAt, here, Directory.lookup, table, entry]

section

variable (here : m.dirs d = some dir)

include here

theorem ownPte_of_table {f : Nat} {entries : Nat → Pte}
    (table : (dir.pde (v / 1024)).table = .own f entries) :
    m.ownPte d v = some (entries (v % 1024)) := by
  simp [ownPte, here, Directory.ownPte, table]

theorem ownPte_of_kernel (table : (dir.pde (v / 1024)).table = .kernel) : m.ownPte d v = none := by
  simp [ownPte, here, Directory.ownPte, table]

theorem table_of_shared (shared : m.ownPte d v = none) : (dir.pde (v / 1024)).table = .kernel := by
  cases table : (dir.pde (v / 1024)).table with
  | kernel => rfl
  | own f entries => cases (ownPte_of_table here table).symm.trans shared

theorem pteAt_of_shared (shared : m.ownPte d v = none) : m.pteAt d v = m.kernel v := by
  simp only [pteAt, here, Directory.lookup, table_of_shared here shared]

/-! ### Replacing a table -/

theorem setPde_of_dir (i : Nat) (p : Pde) :
    m.setPde d i p = m.putDir d (dir.setPde i p) := by
  simp only [setPde, here, putDir, Directory.setPde]

theorem ownPte_setPde (i : Nat) (p : Pde) :
    (m.setPde d i p).ownPte d' v =
      if d' = d ∧ v / 1024 = i then
        (match p.table with
          | .kernel => none
          | .own _ entries => some (entries (v % 1024)))
      else m.ownPte d' v := by
  rw [setPde_of_dir here, ownPte_putDir]
  by_cases same : d' = d
  · subst same
    rw [if_pos rfl]
    by_cases sameTable : v / 1024 = i
    · subst sameTable
      simp [Directory.ownPte, Directory.setPde]
    · rw [if_neg (fun h => sameTable h.2)]
      simp [ownPte, here, Directory.ownPte, Directory.setPde, update_of_ne sameTable]
  · rw [if_neg same, if_neg (fun h => same h.1)]

theorem ownTable_setPde (j : Nat) (p : Pde) :
    (m.setPde d j p).ownTable d' i =
      if d' = d ∧ i = j then
        (match p.table with
          | .kernel => none
          | .own f _ => some f)
      else m.ownTable d' i := by
  rw [setPde_of_dir here, ownTable_putDir]
  by_cases same : d' = d
  · subst same
    rw [if_pos rfl]
    by_cases sameTable : i = j
    · subst sameTable
      simp [Directory.ownTable, Directory.setPde]
    · rw [if_neg (fun h => sameTable h.2)]
      simp [ownTable, here, Directory.ownTable, Directory.setPde, update_of_ne sameTable]
  · rw [if_neg same, if_neg (fun h => same h.1)]

theorem root_setPde (i : Nat) (p : Pde) :
    (m.setPde d i p).root d' = m.root d' := by
  rw [setPde_of_dir here, root_putDir]
  split
  · rename_i same
    simp [root, same, here, Directory.setPde]
  · rfl

end

/-! ### Writing an entry -/

section

variable (own : m.ownPte d v = some old)

include own

theorem setPte_of_own (e : Pte) :
    ∃ dir f entries, m.dirs d = some dir ∧ (dir.pde (v / 1024)).table = .own f entries ∧
      m.setPte d v e = m.setPde d (v / 1024)
        ((dir.pde (v / 1024)).withEntry f entries (v % 1024) e) := by
  obtain ⟨dir, f, entries, here, table, -⟩ := ownPte_eq_some own
  refine ⟨dir, f, entries, here, table, ?_⟩
  simp only [setPte, here, table, Pde.withEntry]

theorem ownPte_setPte :
    (m.setPte d v e).ownPte d' v' = if d' = d ∧ v' = v then some e else m.ownPte d' v' := by
  obtain ⟨dir, f, entries, here, table, result⟩ := setPte_of_own own e
  rw [result, ownPte_setPde here]
  by_cases sameTable : d' = d ∧ v' / 1024 = v / 1024
  · obtain ⟨rfl, sameTable⟩ := sameTable
    by_cases sameEntry : v' % 1024 = v % 1024
    · have samePage : v' = v := by omega
      simp [Pde.withEntry, samePage]
    · have otherPage : v' ≠ v := fun h => sameEntry (by rw [h])
      simp [ownPte, Directory.ownPte, Pde.withEntry, here, table, sameTable, sameEntry, otherPage]
  · rw [if_neg sameTable, if_neg fun h => sameTable ⟨h.1, by rw [h.2]⟩]

theorem ownTable_setPte :
    (m.setPte d v e).ownTable d' i = m.ownTable d' i := by
  obtain ⟨dir, f, entries, here, table, result⟩ := setPte_of_own own e
  rw [result, ownTable_setPde here]
  split
  · rename_i same
    simp [ownTable, same, here, Directory.ownTable, Pde.withEntry, table]
  · rfl

theorem root_setPte : (m.setPte d v e).root d' = m.root d' := by
  obtain ⟨dir, f, entries, here, table, result⟩ := setPte_of_own own e
  rw [result, root_setPde here]

theorem kernel_setPte : (m.setPte d v e).kernel = m.kernel := by
  obtain ⟨dir, f, entries, here, -, result⟩ := setPte_of_own own e
  rw [result, setPde_of_dir here]
  rfl

end

theorem pmm_setPte : (m.setPte d v e).pmm = m.pmm := by
  unfold setPte setPde
  split
  · rfl
  split
  · rfl
  · split <;> rfl

theorem setPte_setPte (own : m.ownPte d v = some old) (e₁ e₂ : Pte) :
    (m.setPte d v e₁).setPte d v e₂ = m.setPte d v e₂ := by
  obtain ⟨dir, f, entries, here, table, result⟩ := setPte_of_own own e₁
  rw [result, setPde_of_dir here]
  simp [setPte, putDir, here, table, setPde, Directory.setPde, Pde.withEntry]

theorem setPte_self (own : m.ownPte d v = some old) : m.setPte d v old = m := by
  obtain ⟨dir, f, entries, here, table, entry⟩ := ownPte_eq_some own
  have sameEntries : update entries (v % 1024) old = entries := by
    rw [← entry]
    exact update_eq_self _ _
  have sameTable : ({ dir.pde (v / 1024) with table := .own f entries } : Pde) =
      dir.pde (v / 1024) := by rw [← table]
  have sameDir : some dir = m.dirs d := here.symm
  simp only [setPte, here, table, setPde, sameEntries, sameTable, update_eq_self]
  rw [sameDir, update_eq_self]

theorem pteAt_eq : m.pteAt d v =
    (m.ownPte d v).getD (if (m.root d).isSome then m.kernel v else .null) := by
  cases here : m.dirs d with
  | none => simp [pteAt, ownPte, root, here]
  | some dir =>
    cases own : m.ownPte d v with
    | none => simp [pteAt_of_shared here own, root, here]
    | some e => simp [pteAt_of_own own]

theorem pteAt_cases (m : Mem) (d : DirId) (v : Nat) :
    m.ownPte d v = some (m.pteAt d v) ∨ m.pteAt d v = .null ∨ m.pteAt d v = m.kernel v := by
  rw [pteAt_eq]
  cases m.ownPte d v with
  | some e => exact .inl rfl
  | none =>
    rw [Option.getD_none]
    split
    · exact .inr (.inr rfl)
    · exact .inr (.inl rfl)

theorem pteAt_setPte (own : m.ownPte d v = some old) :
    (m.setPte d v e).pteAt d' v' = if d' = d ∧ v' = v then e else m.pteAt d' v' := by
  rw [pteAt_eq, ownPte_setPte own, root_setPte own, kernel_setPte own, pteAt_eq]
  split
  · rfl
  · rfl

end Mem

/-! ## Worlds -/

/-- What keeps a frame outside the page tables: a kernel stack, a memfd, a segment. -/
inductive Pin
  | stack (p : Nat)
  | object (h i : Nat)
  | segment (s i : Nat)
  deriving DecidableEq

structure World where
  mem : Mem
  pins : Pin → Option Nat
  shared : DirId → Nat → Prop
  hand : Multiset Nat

/-- Everything that may refer to a frame. -/
inductive Owner
  | entry (d : DirId) (v : Nat)
  | table (d : DirId) (i : Nat)
  | root (d : DirId)
  | pin (x : Pin)
  | hand (f : Nat)
  deriving DecidableEq

def World.held (w : World) : Owner → Option Nat
  | .entry d v => (w.mem.ownPte d v).bind fun e => if e.holds then some e.frame else none
  | .table d i => w.mem.ownTable d i
  | .root d => w.mem.root d
  | .pin x => w.pins x
  | .hand f => if f ∈ w.hand then some f else none

/-- Copy-on-write entries are user pages, and so are demand entries. -/
def Pte.Proper (e : Pte) : Prop :=
  (e.flags.cow = true → e.holds = true) ∧ (e.flags.demand = true → e.flags.user = true)

/-- An entry that refers to no frame of the process. -/
def Pte.Inert (e : Pte) : Prop := e.holds = false ∧ e.Proper

inductive Kind
  | plain
  /-- A supervisor entry becomes a user entry. -/
  | adopt
  /-- `PAGE_RW` is set on a frame that may be shared. -/
  | promote
  /-- A frame is mapped without a reference. -/
  | borrow
  /-- A mapped page leaves the shared regions. -/
  | orphan
  deriving DecidableEq, Repr

/-- What a small change is about, as far as a run may have to forbid it. -/
structure Label where
  page : Option Nat := none
  opens : Option DirId := none
  closes : Option DirId := none
  kind : Kind := .plain
  frame : Option Nat := none

/-- A page that only its own process may write. -/
def World.Private (w : World) (o : Owner) : Prop :=
  ∃ d v e, o = .entry d v ∧ w.mem.ownPte d v = some e ∧ e.flags.rw = true ∧ ¬ w.shared d v

open Classical in
inductive Micro : Label → World → World → Prop
  | alloc {w : World} {f : Nat} {m : Mem} (run : w.mem.kalloc = (some f, m)) :
      Micro {} w { w with mem := m, hand := f ::ₘ w.hand }
  | starve {w : World} {m : Mem} (run : w.mem.kalloc = (none, m)) : Micro {} w { w with mem := m }
  | fill {w : World} (f : Nat) (bytes : Nat → UInt8) :
      Micro {} w { w with mem := w.mem.fill f bytes }
  | bump {w : World} (f : Nat) : Micro {} w { w with mem := w.mem.pageRefInc f }
  | abandon {w : World} {f : Nat} {rest : Multiset Nat} (inHand : w.hand = f ::ₘ rest) :
      Micro {} w { w with hand := rest }
  | discard {w : World} {f : Nat} {rest : Multiset Nat} (inHand : w.hand = f ::ₘ rest) :
      Micro {} w { w with mem := w.mem.freePage f, hand := rest }
  | pin {w : World} {x : Pin} {f : Nat} {rest : Multiset Nat} (free : w.pins x = none)
      (inHand : w.hand = f ::ₘ rest) :
      Micro {} w { w with pins := update w.pins x (some f), hand := rest }
  | unpin {w : World} {x : Pin} {f : Nat} (pinned : w.pins x = some f) :
      Micro {} w { w with mem := w.mem.freePage f, pins := update w.pins x none }
  | openDir {w : World} {d : DirId} {f : Nat} {rest : Multiset Nat} (absent : w.mem.dirs d = none)
      (inHand : w.hand = f ::ₘ rest) :
      Micro { opens := some d } w
        { w with mem := w.mem.putDir d ⟨f, fun _ => kernelPde⟩, hand := rest }
  | closeDir {w : World} {d : DirId} {dir : Directory} (here : w.mem.dirs d = some dir)
      (bare : ∀ i, (dir.pde i).table = .kernel) :
      Micro { closes := some d } w { w with mem := (w.mem.freePage dir.frame).dropDir d }
  | forget {w : World} (d : DirId) :
      Micro { closes := some d } w { w with mem := w.mem.dropDir d }
  | reflag {w : World} {d : DirId} {dir : Directory} {pde : Nat → Pde}
      (here : w.mem.dirs d = some dir) (same : ∀ i, (pde i).table = (dir.pde i).table) :
      Micro {} w { w with mem := w.mem.putDir d { dir with pde } }
  | privatise {w : World} {d : DirId} {dir : Directory} {i f : Nat} {rest : Multiset Nat}
      (user rw : Bool) (here : w.mem.dirs d = some dir) (shared : (dir.pde i).table = .kernel)
      (low : i < pdKernelEntries) (inHand : w.hand = f ::ₘ rest) :
      Micro {} w { w with
        mem := w.mem.setPde d i ⟨user, rw, .own f fun j => w.mem.kernel (1024 * i + j)⟩
        hand := rest }
  | fold {w : World} {d : DirId} {dir : Directory} {i f : Nat} {entries : Nat → Pte}
      (here : w.mem.dirs d = some dir) (own : (dir.pde i).table = .own f entries)
      (bare : ∀ j < 1024, (entries j).holds = false) :
      Micro {} w
        { w with mem := (w.mem.setPde d i { dir.pde i with table := .kernel }).freePage f }
  | install {w : World} {d : DirId} {v f : Nat} {old : Pte} {fl : Flags} {rest : Multiset Nat}
      (own : w.mem.ownPte d v = some old) (inHand : w.hand = f ::ₘ rest)
      (holds : (Pte.mk f fl).holds = true) :
      Micro { page := some v } w { w with mem := w.mem.setPte d v ⟨f, fl⟩, hand := rest }
  | clear {w : World} {d : DirId} {v : Nat} {old e : Pte} (own : w.mem.ownPte d v = some old)
      (inert : e.Inert) : Micro { page := some v } w { w with mem := w.mem.setPte d v e }
  | release {w : World} {d : DirId} {v : Nat} {old e : Pte} (own : w.mem.ownPte d v = some old)
      (holds : old.holds = true) (inert : e.Inert) :
      Micro { page := some v } w { w with mem := (w.mem.freePage old.frame).setPte d v e }
  | share {w : World} {d : DirId} {v f : Nat} {old : Pte} {fl : Flags} {o : Owner}
      (own : w.mem.ownPte d v = some old) (source : w.held o = some f)
      (elsewhere : o ≠ .entry d v) (settled : ∀ g, o ≠ .hand g) (notPrivate : ¬ w.Private o)
      (holds : (Pte.mk f fl).holds = true) (writable : fl.rw = true → w.shared d v) :
      Micro { page := some v } w { w with mem := (w.mem.setPte d v ⟨f, fl⟩).pageRefInc f }
  | protect {w : World} {d : DirId} {v : Nat} {old : Pte} {fl : Flags}
      (own : w.mem.ownPte d v = some old) (before : old.holds = true)
      (holds : (Pte.mk old.frame fl).holds = true) :
      Micro {
        page := some v
        kind := if fl.rw = true → old.flags.rw = true ∨ w.mem.pmm.refs old.frame = 1 ∨ w.shared d v
          then .plain else .promote } w
        { w with mem := w.mem.setPte d v ⟨old.frame, fl⟩ }
  | adopt {w : World} {d : DirId} {v : Nat} {old : Pte} {fl : Flags}
      (own : w.mem.ownPte d v = some old) (holds : (Pte.mk old.frame fl).holds = true) :
      Micro { page := some v, kind := .adopt } w { w with mem := w.mem.setPte d v ⟨old.frame, fl⟩ }
  | borrow {w : World} {d : DirId} {v f : Nat} {old : Pte} {fl : Flags}
      (own : w.mem.ownPte d v = some old) (holds : (Pte.mk f fl).holds = true) :
      Micro { page := some v, kind := .borrow, frame := some f } w
        { w with mem := w.mem.setPte d v ⟨f, fl⟩ }
  | kernelClear {w : World} (v : Nat) :
      Micro { page := some v } w { w with mem := w.mem.putKernel v .null }
  | kernelBorrow {w : World} {v f : Nat} {fl : Flags} (high : totalPages ≤ v)
      (simple : fl.cow = false ∧ fl.demand = false) :
      Micro { page := some v, kind := .borrow } w { w with mem := w.mem.putKernel v ⟨f, fl⟩ }
  | reshare {w : World} (d : DirId) (pages : Nat → Prop) :
      Micro {
        kind := if ∀ v e, w.shared d v → ¬ pages v → w.mem.ownPte d v = some e →
            e.holds = true → e.flags.rw = false
          then .plain else .orphan } w
        { w with shared := update w.shared d pages }

/-! ## Chains -/

/-- The small changes that an action may make. -/
structure Scope where
  pages : Nat → Prop
  kinds : Kind → Prop
  opens : DirId → Prop
  closes : DirId → Prop
  frames : Nat → Prop

/-- Nothing but plain changes of the given pages. -/
def Scope.touching (pages : Nat → Prop) : Scope :=
  ⟨pages, fun _ => False, fun _ => False, fun _ => False, fun _ => False⟩

structure Label.Within (l : Label) (sc : Scope) : Prop where
  page : ∀ v, l.page = some v → sc.pages v
  kind : l.kind = .plain ∨ sc.kinds l.kind
  opens : ∀ d, l.opens = some d → sc.opens d
  closes : ∀ d, l.closes = some d → sc.closes d
  frame : ∀ f, l.frame = some f → sc.frames f

def Steps (sc : Scope) : World → World → Prop :=
  Relation.ReflTransGen fun w w' => ∃ l, Label.Within l sc ∧ Micro l w w'

namespace Steps

variable {sc : Scope} {w w' w'' : World}

theorem refl : Steps sc w w := Relation.ReflTransGen.refl

theorem trans (first : Steps sc w w') (second : Steps sc w' w'') : Steps sc w w'' :=
  Relation.ReflTransGen.trans first second

theorem single {l : Label} (within : l.Within sc) (micro : Micro l w w') : Steps sc w w' :=
  Relation.ReflTransGen.single ⟨l, within, micro⟩

/-- What every permitted change preserves is preserved by a chain. -/
theorem invariant (inv : World → Prop) (steps : Steps sc w w') (start : inv w)
    (kept : ∀ l a b, l.Within sc → Micro l a b → inv a → inv b) : inv w' := by
  induction steps with
  | refl => exact start
  | tail _ last ih =>
    obtain ⟨l, within, micro⟩ := last
    exact kept l _ _ within micro ih

end Steps

end CactKernel.Memory
