import Mathlib.Tactic.Ring

/-! # Which object a file mapping reads

The branch of `do_mmap` for a private mapping of a file. The descriptor table of the C side
holds `file_t *`; `fd_to_node` hands its entry on as a `VfsNode *`. Where the mapping goes and
whether the allocator has the frames are decided in `Memory.Vm.doMmap` and are inputs here. -/

set_option autoImplicit false

namespace CactKernel.FileMap

inductive Object
  /-- A `file_t`, by the address of its node. -/
  | file (node : Nat)
  /-- The node of a regular file. -/
  | node (bytes : List UInt8)

structure Kernel where
  heap : Nat → Option Object
  null : heap 0 = none
  /-- `current_task->proc->fds`. -/
  fds : Option (Nat → Nat)
  /-- `read_vfs` at an address; where no node lies, it goes by what the bytes there look like. -/
  readVfs : Nat → Nat → Nat → List UInt8
  reads : ∀ a bytes off n, heap a = some (.node bytes) → readVfs a off n = (bytes.drop off).take n

def maxFd : Nat := 256

def fdToNode (k : Kernel) (fd : Int) : Nat :=
  if fd < 0 ∨ maxFd ≤ fd then 0
  else match k.fds with
    | none => 0
    | some table => table fd.toNat

/-- The pages of the mapping, and the reads that filled them. -/
structure Mapping where
  pages : List (List UInt8)
  reads : List (Nat × Nat)

def filePages (k : Kernel) (node offset : Nat) : Nat → Mapping
  | 0 => ⟨[], []⟩
  | n + 1 =>
    let before := filePages k node offset n
    let fileOff := (offset + n * 4096) % 2 ^ 32
    if node = 0 then ⟨before.pages ++ [[]], before.reads⟩
    else ⟨before.pages ++ [k.readVfs node fileOff 4096], before.reads ++ [(node, fileOff)]⟩

def doMmap (k : Kernel) (va : Option Nat) (slot : Bool) (frames : Nat) (length : Nat) (fd : Int)
    (offset : Nat) : Option Mapping :=
  let pages := (length + 4095) % 2 ^ 32 / 4096
  if length = 0 ∨ va = none ∨ slot = false ∨ fd < 0 ∨ frames < pages then none
  else some (filePages k (fdToNode k fd) offset pages)

/-- A page is zeroed before it is read into. -/
def Mapping.byteAt (m : Mapping) (j : Nat) : Option UInt8 :=
  m.pages[j / 4096]?.map fun page => page.getD (j % 4096) 0

/-- The mapping shows the file, and was read from the node of the file. -/
def Mapping.Shows (m : Mapping) (node : Nat) (bytes : List UInt8) (offset length : Nat) : Prop :=
  (∀ r ∈ m.reads, r.1 = node) ∧ ∀ j < length, m.byteAt j = some (bytes.getD (offset + j) 0)

theorem mem_reads (k : Kernel) {node : Nat} (offset : Nat) (here : node ≠ 0) {n : Nat}
    (some_page : 0 < n) : ∃ r ∈ (filePages k node offset n).reads, r.1 = node := by
  cases n with
  | zero => cases some_page
  | succ n => simp [filePages, here]

/-- No mapping is read from the node of its file: the object that is read is the `file_t`. -/
theorem mmap_never_shows_file {k : Kernel} {va : Option Nat} {slot : Bool}
    {frames length offset : Nat}
    {fd : Int} {m : Mapping} {table : Nat → Nat} {node : Nat} {bytes : List UInt8}
    (opened : k.fds = some table ∧ fd < maxFd) (file : k.heap (table fd.toNat) = some (.file node))
    (regular : k.heap node = some (.node bytes))
    (run : doMmap k va slot frames length fd offset = some m) :
    ¬ m.Shows node bytes offset length := by
  rintro ⟨own, shown⟩
  rw [doMmap] at run
  split at run
  · cases run
  rename_i passed
  simp only [not_or] at passed
  obtain ⟨nonempty, -, -, positive, -⟩ := passed
  cases run
  have entry : fdToNode k fd = table fd.toNat := by
    rw [fdToNode, if_neg (by omega), opened.1]
  have nonnull : table fd.toNat ≠ 0 := by
    intro null
    rw [null, k.null] at file
    cases file
  rw [entry] at own shown
  rcases Nat.eq_zero_or_pos ((length + 4095) % 2 ^ 32 / 4096) with none_mapped | some_page
  · have first := shown 0 (by omega)
    rw [none_mapped] at first
    cases first
  · obtain ⟨r, member, same⟩ := mem_reads k offset nonnull some_page
    rw [← same, own r member, regular] at file
    cases file

/-- A file of one byte behind descriptor 3. -/
def oneFile : Kernel where
  heap a := if a = 8 then some (.file 16) else if a = 16 then some (.node [7]) else none
  null := rfl
  fds := some fun fd => if fd = 3 then 8 else 0
  readVfs a off n := if a = 16 then ([7].drop off).take n else []
  reads a bytes off n here := by
    split at here
    · cases here
    · split at here
      · cases here
        rename_i same
        rw [if_pos same]
      · cases here

theorem mmap_never_shows_file_one : ∃ m, doMmap oneFile (some 0x40000000) true 1 1 3 0 = some m ∧
    ¬ m.Shows 16 [7] 0 1 :=
  ⟨_, rfl, @mmap_never_shows_file oneFile (some 0x40000000) true 1 1 0 3 _ _ 16 [7]
    ⟨rfl, by decide⟩ rfl rfl rfl⟩

theorem file_read_as_node : ∃ m, doMmap oneFile (some 0x40000000) true 1 1 3 0 = some m ∧
    m.reads = [(8, 0)] ∧ m.byteAt 0 = some 0 ∧ ¬ m.Shows 16 [7] 0 1 := by
  refine ⟨_, rfl, by decide, by decide, ?_⟩
  rintro ⟨-, shown⟩
  exact absurd (shown 0 (by decide)) (by decide)

end CactKernel.FileMap
