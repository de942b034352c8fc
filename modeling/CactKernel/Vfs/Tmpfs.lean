import CactKernel.Lib.Reach

/-! # tmpfs

Sizes are 32-bit: `end = off + size` and the doubling of the capacity wrap, so that the loop of
`_ensure_cap` may not end; after 32 doublings the capacity is 0. A write says whether its
`memcpy` stayed inside the buffer. `memory` says which requests `kmalloc` grants. -/

set_option autoImplicit false

namespace CactKernel.Vfs

open Lib Nat Or

structure TmpfsNode where
  directory : Bool := false
  data : Nat → UInt8 := fun _ => 0
  size : Nat := 0
  cap : Nat := 0
  /-- `vnode.size` -/
  vsize : Nat := 0
  /-- `vnode.refcount`: one for the link in the directory, one for each `open` -/
  refcount : Nat := 1
  pendingFree : Bool := false

/-- A C `int`. -/
def toInt (x : Nat) : Int := (BitVec.ofNat 32 x).toInt

/-- `while (nc < needed) nc *= 2` -/
def doubled (needed : Nat) : Nat → Nat → Option Nat
  | 0, _ => none
  | rounds + 1, nc => if nc < needed then doubled needed rounds (nc * 2 % 2 ^ 32) else some nc

structure Wrote where
  ret : Int
  node : TmpfsNode
  inside : Bool

namespace TmpfsNode

variable (n : TmpfsNode) (memory : Nat → Bool)

def ensureCap (needed : Nat) : Option (Bool × TmpfsNode) :=
  if needed ≤ n.cap then some (true, n)
  else (doubled needed 33 (if n.cap ≠ 0 then n.cap * 2 % 2 ^ 32 else 256)).map fun nc =>
    if memory nc then
      (true, { n with data := fun i => if i < n.size then n.data i else 0, cap := nc })
    else (false, n)

/-- The result, and what the call stores in the buffer. -/
def tmpRead (off size : Nat) : Int × (Nat → Option UInt8) :=
  if n.directory then (-1, fun _ => none)
  else if off ≥ n.size then (0, fun _ => none)
  else
    let size := if size > n.size - off then n.size - off else size
    (toInt size, fun i => if i < size then some (n.data (off + i)) else none)

def tmpWrite (off size : Nat) (buf : Nat → UInt8) : Option Wrote :=
  if n.directory then some ⟨-1, n, true⟩
  else
    let stop := (off + size) % 2 ^ 32
    (n.ensureCap memory stop).map fun (ready, n) =>
      if ready then
        ⟨toInt size,
          { n with
            data := fun i => if off ≤ i ∧ i < off + size then buf (i - off) else n.data i
            size := if stop > n.size then stop else n.size
            vsize := if stop > n.size then stop else n.vsize },
          off + size ≤ n.cap⟩
      else ⟨-1, n, true⟩

/-- `tmpfs_ops` has no `truncate`. -/
def truncateVfs (length : Nat) : TmpfsNode := { n with vsize := length }

/-! ## Contents of a file -/

inductive Io
  | read (off size : Nat)
  | write (off size : Nat) (buf : Nat → UInt8) (memory : Nat → Bool)
  | truncate (length : Nat)

def IoStep : Io → TmpfsNode → Prop
  | .read _ _, n' => n' = n
  | .write off size buf memory, n' => ∃ w, n.tmpWrite memory off size buf = some w ∧ n' = w.node
  | .truncate length, n' => n' = n.truncateVfs length

/-- The byte array, which ends at the size. -/
def bytes (i : Nat) : Option UInt8 := if i < n.size then some (n.data i) else none

/-- The call returns, stays inside the buffer and does what it would to the byte array. -/
def Refines : Io → Prop
  | .read off size => n.tmpRead off size =
      (((min size (n.size - off) : Nat) : Int),
        fun i => if i < size then n.bytes (off + i) else none)
  | .write off size buf memory => ∃ w, n.tmpWrite memory off size buf = some w ∧ w.inside = true ∧
      (w.ret = size ∧ w.node.bytes = (fun i => if i < off + size then
          some (if off ≤ i then buf (i - off) else (n.bytes i).getD 0) else n.bytes i) ∨
        w.ret = -1 ∧ w.node = n ∧ ∃ nc, memory nc = false)
  | .truncate length => (n.truncateVfs length).bytes =
      fun i => if i < length then some ((n.bytes i).getD 0) else none

def Representable : Io → Prop
  | .read off size => min size (n.size - off) < 2 ^ 31
  | .write off size _ _ => off + size ≤ 2 ^ 31 ∧ size < 2 ^ 31
  | .truncate length => length = n.size

structure Fits : Prop where
  file : n.directory = false
  size : n.size ≤ n.cap
  vnode : n.vsize = n.size
  zero : ∀ i ≥ n.size, n.data i = 0

end TmpfsNode

theorem toInt_eq {x : Nat} (small : x < 2 ^ 31) : toInt x = x := by
  rw [toInt, BitVec.toInt_eq_toNat_of_lt] <;> simp <;> omega

theorem doubled_ends {needed : Nat} (small : needed ≤ 2 ^ 31) (rounds : Nat) {nc : Nat}
    (positive : 0 < nc) (room : needed ≤ nc * 2 ^ rounds) :
    ∃ c ≥ needed, doubled needed (rounds + 1) nc = some c := by
  induction rounds generalizing nc with
  | zero => exact ⟨nc, by omega, if_neg (by omega)⟩
  | succ rounds ih =>
    rw [doubled]
    split
    · rw [mod_eq_of_lt (by omega)]
      exact ih (by omega) (by rw [Nat.pow_succ'] at room; rwa [Nat.mul_assoc])
    · exact ⟨nc, by omega, rfl⟩

namespace TmpfsNode

variable {n : TmpfsNode}

theorem Fits.ensureCap {needed : Nat} (fits : n.Fits) (memory : Nat → Bool)
    (small : needed ≤ 2 ^ 31) :
    n.ensureCap memory needed = some (false, n) ∧ (∃ nc, memory nc = false) ∨
      ∃ c ≥ needed, n.size ≤ c ∧ n.ensureCap memory needed = some (true, { n with cap := c }) := by
  have ⟨_, larger, _, zero⟩ := fits
  rw [TmpfsNode.ensureCap]
  split
  · exact inr ⟨n.cap, by omega, larger, rfl⟩
  obtain ⟨c, room, ends⟩ : ∃ c ≥ needed,
      doubled needed 33 (if n.cap ≠ 0 then n.cap * 2 % 2 ^ 32 else 256) = some c :=
    doubled_ends small 32 (by split <;> omega) (by split <;> omega)
  have same : (fun i => if i < n.size then n.data i else 0) = n.data := by
    funext i
    grind
  rw [ends, same]
  by_cases granted : memory c = true
  · exact inr ⟨c, room, by omega, by simp [granted]⟩
  · exact inl ⟨by simp [granted], c, by simpa using granted⟩

theorem Fits.write {off size : Nat} {buf : Nat → UInt8} {memory : Nat → Bool} (fits : n.Fits)
    (small : off + size ≤ 2 ^ 31) (short : size < 2 ^ 31) :
    n.Refines (.write off size buf memory) ∧
      ∀ w, n.tmpWrite memory off size buf = some w → w.node.Fits := by
  have ⟨file, _, vnode, zero⟩ := fits
  have stop : (off + size) % 2 ^ 32 = off + size := mod_eq_of_lt (by omega)
  simp only [Refines, tmpWrite, file, stop, Bool.false_eq_true, if_false]
  rcases fits.ensureCap memory small with ⟨run, refused⟩ | ⟨c, room, larger, run⟩
  · rw [run]
    refine ⟨⟨_, rfl, rfl, inr ⟨rfl, rfl, refused⟩⟩, fun w result => ?_⟩
    exact Option.some.inj result ▸ fits
  · rw [run]
    refine ⟨⟨_, rfl, by simpa using room, inl ⟨toInt_eq short, ?_⟩⟩, fun w result => ?_⟩
    · funext i
      simp only [bytes, if_true]
      grind
    · obtain rfl := Option.some.inj result
      refine ⟨file, ?_, by simp [vnode], fun i => ?_⟩
      · simp only [if_true]
        split <;> omega
      · simp only [if_true]
        grind

/-- While every call is representable, the file is the byte array it should be. -/
theorem tmpfs_refines (reached : Reach (· = ({} : TmpfsNode)) (restrict Representable IoStep) n) :
    n.size ≤ n.cap ∧ n.vsize = n.size ∧ ∀ io, n.Representable io → n.Refines io := by
  have fits : n.Fits := by
    apply reached.invariant Fits
    · exact fun _ initial => initial ▸ ⟨rfl, Nat.le_refl _, rfl, fun _ _ => rfl⟩
    · rintro n io m fits ⟨guard, move⟩
      cases io with
      | read off size => exact move ▸ fits
      | truncate length => exact move ▸ guard ▸ ⟨fits.file, fits.size, rfl, fits.zero⟩
      | write off size buf memory =>
        obtain ⟨w, run, rfl⟩ := move
        exact (fits.write guard.1 guard.2).2 w run
  refine ⟨fits.size, fits.vnode, fun io guard => ?_⟩
  cases io with
  | read off size =>
    change min size (n.size - off) < 2 ^ 31 at guard
    have count : toInt (if size > n.size - off then n.size - off else size) =
        ((min size (n.size - off) : Nat) : Int) := by
      rw [toInt_eq (by split <;> omega)]
      grind
    simp only [Refines, tmpRead, fits.file, count, bytes]
    grind
  | truncate length =>
    obtain rfl := guard
    funext i
    simp only [truncateVfs, bytes]
    grind
  | write off size buf memory => exact (fits.write guard.1 guard.2).1

theorem tmpfs_refines_one : ∃ n : TmpfsNode, n.size = 1 ∧ n.vsize = n.size ∧
    n.Refines (.read 0 1) := by
  have first : restrict Representable IoStep {} (.write 0 1 (fun _ => 7) fun _ => true) _ :=
    ⟨⟨by decide, by decide⟩, _, rfl, rfl⟩
  have refined := tmpfs_refines (.next (.start rfl) first)
  exact ⟨_, rfl, refined.2.1, refined.2.2 _ (by change min 1 (1 - 0) < 2 ^ 31; decide)⟩

/-- A file of one byte keeps it when it is truncated to nothing; a write whose end passes `2 ^ 32`
leaves the buffer and claims to have succeeded. -/
theorem tmpfs_not_byte_array :
    (∃ w : Wrote, ({} : TmpfsNode).tmpWrite (fun _ => true) 0 1 (fun _ => 7) = some w ∧
      ((w.node.truncateVfs 0).tmpRead 0 1).1 = 1 ∧ (w.node.truncateVfs 0).vsize = 0) ∧
    ∃ w : Wrote, ({} : TmpfsNode).tmpWrite (fun _ => true) (2 ^ 32 - 1) 2 (fun _ => 7) = some w ∧
      w.ret = 2 ∧ w.inside = false := by
  exact ⟨⟨_, rfl, rfl, rfl⟩, _, rfl, rfl, rfl⟩

end TmpfsNode

/-! ## Deferred free

The kernel switches tasks at a timer tick wherever it is, so a call is cut at each access of the
link, the count and `pending_free`, and the steps of other calls come between. The test for a
count of 0 in `_tmp_close` and the subtraction after it are one step. -/

/-- The link in the directory, and the call of `_tmp_delete` or `_tmp_rmdir` that took it. -/
inductive Link
  | linked
  /-- The entry is gone, and the reference of the tree is not dropped yet. -/
  | detached (rmdir : Bool)
  /-- `_tmp_rmdir` looks at the count again. -/
  | deciding
  /-- `pending_free = 1` comes next. -/
  | marking
  /-- `_free_tmpfs_node` comes next. -/
  | freeing
  | gone
deriving DecidableEq

/-- A node and the calls that are at work on it. `freed` counts the calls of
`_free_tmpfs_node`. -/
structure TmpfsLife where
  node : TmpfsNode
  link : Link := .linked
  /-- Calls whose path led to the node, before `_tmp_open`. -/
  walked : Nat := 0
  opens : Nat := 0
  /-- Calls of `_tmp_close` that took the last reference, before the test of `pending_free`. -/
  closing : Nat := 0
  freed : Nat := 0

namespace TmpfsLife

variable (s : TmpfsLife)

def tmpWalk : Option TmpfsLife :=
  if s.link = .linked then some { s with walked := s.walked + 1 } else none

def tmpOpen : Option TmpfsLife :=
  if s.walked = 0 then none
  else some { s with
    walked := s.walked - 1
    node.refcount := s.node.refcount + 1
    opens := s.opens + 1 }

/-- `file_free` of one descriptor, up to the subtraction -/
def tmpClose : Option TmpfsLife :=
  if s.opens = 0 then none
  else
    let s := { s with opens := s.opens - 1 }
    if s.node.refcount = 0 then some s
    else some { s with
      node.refcount := s.node.refcount - 1
      closing := if s.node.refcount = 1 then s.closing + 1 else s.closing }

def tmpCloseTest : Option TmpfsLife :=
  if s.closing = 0 then none
  else some { s with
    closing := s.closing - 1
    freed := if s.node.pendingFree then s.freed + 1 else s.freed }

/-- The search of the directory ends at the node. -/
def tmpDelete : Option TmpfsLife :=
  if s.link = .linked then some { s with link := .detached false } else none

def tmpRmdir (empty : Bool) : Option TmpfsLife :=
  if s.link ≠ .linked ∨ s.node.directory = false ∨ empty = false then none
  else some { s with link := .detached true }

/-- The next access of the call that took the entry. -/
def unlinkNext : Option TmpfsLife :=
  match s.link with
  | .linked | .gone => none
  | .detached rmdir =>
    some { s with
      node.refcount := s.node.refcount - 1
      link := if rmdir then .deciding else if s.node.refcount = 1 then .freeing else .marking }
  | .deciding => some { s with link := if s.node.refcount = 0 then .freeing else .marking }
  | .marking => some { s with node.pendingFree := true, link := .gone }
  | .freeing => some { s with freed := s.freed + 1, link := .gone }

inductive Op
  | walk | opened | closed | closeTest | deleted | removed (empty : Bool) | unlink

def step : Op → Option TmpfsLife
  | .walk => s.tmpWalk
  | .opened => s.tmpOpen
  | .closed => s.tmpClose
  | .closeTest => s.tmpCloseTest
  | .deleted => s.tmpDelete
  | .removed empty => s.tmpRmdir empty
  | .unlink => s.unlinkNext

/-- No call is at work on the node. -/
def Quiet : Prop := (s.link = .linked ∨ s.link = .gone) ∧ s.walked = 0 ∧ s.closing = 0

/-- No descriptor is closed between the drop of the tree's reference and `pending_free = 1`, and
the entry is not taken while a path that led to it is on the way to `_tmp_open`. -/
def Undisturbed : Op → Prop
  | .closed => s.link ≠ .deciding ∧ s.link ≠ .marking
  | .deleted | .removed _ => s.walked = 0
  | _ => True

/-- The reference of the tree. -/
def tree : Nat :=
  match s.link with
  | .linked | .detached _ => 1
  | _ => 0

structure Law : Prop where
  count : s.node.refcount = s.opens + s.tree
  walked : s.link ≠ .linked → s.walked = 0
  early : s.link ≠ .gone → s.closing = 0 ∧ s.freed = 0
  freeing : s.link = .freeing → s.opens = 0
  marking : s.link = .marking → s.opens ≠ 0
  gone : s.link = .gone → s.closing + s.freed = if s.opens = 0 then 1 else 0
  pending : s.link = .gone → s.opens + s.closing ≠ 0 → s.node.pendingFree = true

variable {s}

theorem Law.unlinkNext {t : TmpfsLife} (law : s.Law) (move : s.unlinkNext = some t) : t.Law := by
  have ⟨count, walked, early, freeing, marking, gone, pending⟩ := law
  rw [TmpfsLife.unlinkNext] at move
  rw [tree] at count
  cases place : s.link with
  | linked | gone =>
    rw [place] at move
    cases move
  | detached rmdir | deciding | marking | freeing =>
    rw [place] at move count
    cases move
    constructor <;> grind [tree]

theorem Law.tmpClose {t : TmpfsLife} (law : s.Law) (calm : s.Undisturbed .closed)
    (move : s.tmpClose = some t) : t.Law := by
  have ⟨count, walked, early, freeing, marking, gone, pending⟩ := law
  have ⟨deciding, unmarked⟩ := calm
  rw [TmpfsLife.tmpClose] at move
  split at move
  · cases move
  rename_i opened
  rw [tree] at count
  cases place : s.link with
  | deciding => exact absurd place deciding
  | marking => exact absurd place unmarked
  | freeing => exact absurd (freeing place) opened
  | linked | detached rmdir | gone =>
    rw [place] at count
    dsimp only at move
    split at move
    · omega
    · cases move
      constructor <;> grind [tree]

theorem Law.step {op : Op} {t : TmpfsLife} (law : s.Law) (calm : s.Undisturbed op)
    (move : s.step op = some t) : t.Law := by
  have ⟨count, walked, early, freeing, marking, gone, pending⟩ := law
  cases op with
  | walk =>
    simp only [TmpfsLife.step, tmpWalk] at move
    split at move
    · cases move
      constructor <;> grind [tree]
    · cases move
  | opened =>
    simp only [TmpfsLife.step, tmpOpen] at move
    split at move
    · cases move
    · cases move
      constructor <;> grind [tree]
  | closed => exact law.tmpClose calm move
  | closeTest =>
    simp only [TmpfsLife.step, tmpCloseTest] at move
    split at move
    · cases move
    · cases move
      constructor <;> grind [tree]
  | deleted =>
    simp only [TmpfsLife.step, tmpDelete] at move
    split at move
    · cases move
      constructor <;> grind [tree, Undisturbed]
    · cases move
  | removed empty =>
    simp only [TmpfsLife.step, tmpRmdir] at move
    split at move
    · cases move
    · cases move
      constructor <;> grind [tree, Undisturbed]
  | unlink => exact law.unlinkNext move

instance (op : Op) : Decidable (s.Undisturbed op) := by
  cases op <;> unfold Undisturbed <;> infer_instance

end TmpfsLife

end CactKernel.Vfs
