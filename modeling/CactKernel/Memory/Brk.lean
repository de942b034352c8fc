import CactKernel.Lib.Reach
import CactKernel.Memory.Frames

/-! # The program break

`sys_brk` maps fresh frames when the break passes a page end. It never unmaps: a lower break
leaves its pages and their frames behind. `Memory.Process` has the call as one of many on the
page tables of all processes; here are the books of one process that has not forked.

A page that the process does not map shows the frame of its own number, as the kernel's
identity map does, and `sys_brk` zeroes a new frame through the page of that number. A
`kalloc` that finds no free frame swaps pages out or kills a task; that is not followed. -/

set_option autoImplicit false

namespace CactKernel.Brk

open Lib Memory List Function Nat

def procInitialPages : Nat := 256
def procGrowStep : Nat := 256

/-- The pages of a heap at its limit of 16 MiB. -/
def heapPages : Nat := 4096

def firstUserPage : Nat := 0x8000

structure Process where
  brkStart : Nat
  brkCurrent : Nat
  /-- The frames that the process maps, and the private page table of a directory slot. -/
  entry : Nat → Option Nat
  table : Nat → Option Nat
  /-- `mm.pages` up to `count`, and its `capacity`. -/
  tracker : List Nat
  capacity : Nat
  /-- The frames that `kalloc` finds, one after the other. -/
  free : List Nat
  page : Nat → Nat → UInt8

/-- The new break, and whether `kmalloc` has an array for the tracker when a page needs one. -/
structure Call where
  newBrk : Nat
  kmalloc : Nat → Bool

namespace Process

variable {s s' : Process} {c : Call} {v n : Nat}

/-- Zeroes are stored through page `v`. -/
def zeroThrough (v : Nat) (s : Process) : Process :=
  { s with page := update s.page ((s.entry v).getD v) fun _ => 0 }

def vmmMap (v f : Nat) (s : Process) : Option Process :=
  match s.table (v / 1024), s.free with
  | some _, _ => some { s with entry := update s.entry v (some f) }
  | none, [] => none
  | none, g :: free =>
    some { s with
      free, table := update s.table (v / 1024) (some g), entry := update s.entry v (some f) }

/-- An array of capacity 0 is not there yet. -/
def procTrackerAdd (kmalloc : Bool) (f : Nat) (s : Process) : Process :=
  if s.tracker.length < s.capacity then { s with tracker := s.tracker ++ [f] }
  else if kmalloc then
    { s with
      capacity := if s.capacity = 0 then procInitialPages else s.capacity + procGrowStep
      tracker := s.tracker ++ [f] }
  else s

def growPage (c : Call) (v : Nat) (s : Process) : Option Process :=
  match s.free with
  | [] => none
  | f :: free =>
    -- The answer of `proc_tracker_add` is dropped.
    ((zeroThrough f { s with free }).vmmMap v f).map (procTrackerAdd (c.kmalloc v) f)

def grow (c : Call) : Nat → Nat → Process → Option Process
  | 0, _, s => some s
  | n + 1, v, s => (s.growPage c v).bind (grow c n (v + 1))

/-- The outer `none` is a `kalloc` that finds no free frame, the inner one the answer -1. -/
def sysBrk (s : Process) (c : Call) : Option (Option Nat × Process) :=
  if c.newBrk = 0 then some (some s.brkCurrent, s)
  else if c.newBrk < s.brkStart then some (none, s)
  else if 16 * 1024 * 1024 < c.newBrk - s.brkStart then some (none, s)
  else
    let oldEnd := pagesOf s.brkCurrent
    (grow c (pagesOf c.newBrk - oldEnd) oldEnd s).map fun s =>
      (some c.newBrk, { s with brkCurrent := c.newBrk })

/-- The last frames that were tracked are those of the heap: page `i` shows the `i`-th one, up to
the break. No frame is tracked twice, or tracked and free. -/
structure Books (s : Process) (heap : List Nat) : Prop where
  tracked : heap <:+ s.tracker
  size : pagesOf s.brkStart + heap.length = pagesOf s.brkCurrent
  backed : ∀ v, pagesOf s.brkStart ≤ v → v < pagesOf s.brkStart + heapPages →
    s.entry v = heap[v - pagesOf s.brkStart]?
  once : (s.tracker ++ s.free).Nodup
  user : firstUserPage ≤ pagesOf s.brkStart ∧ ∀ v < firstUserPage, s.entry v = none

def Accounted (s : Process) : Prop := ∃ heap, s.Books heap

structure Sound (s : Process) (c : Call) (r : Option Nat × Process) : Prop where
  accounted : r.2.Accounted
  failed : r.1 = none → r.2 = s
  released : c.newBrk ≠ 0 → r.1 ≠ none → ∀ v f, pagesOf c.newBrk ≤ v →
    v < pagesOf s.brkCurrent → s.entry v = some f → f ∈ r.2.free
  zero : ∀ v f, pagesOf s.brkCurrent ≤ v → v < pagesOf r.2.brkCurrent →
    r.2.entry v = some f → ∀ i, r.2.page f i = 0

/-- There is a free frame for each page from `v` to `e` and for each page table that they need
beside a private one of the first page. -/
abbrev Supplied (s : Process) (v e : Nat) : Prop :=
  v < e → e - v + ((e - 1) / 1024 - v / 1024) + (if s.table (v / 1024) = none then 1 else 0) ≤
    s.free.length

/-- The call is refused, or gives up no page and gets all that it needs: frames below the user's
addresses and the arrays of the tracker. -/
def Fits (s : Process) (c : Call) : Prop :=
  c.newBrk = 0 ∨ c.newBrk < s.brkStart ∨ 16 * 1024 * 1024 < c.newBrk - s.brkStart ∨
    pagesOf s.brkCurrent ≤ pagesOf c.newBrk ∧
      s.Supplied (pagesOf s.brkCurrent) (pagesOf c.newBrk) ∧
      (∀ f ∈ s.free, f < firstUserPage) ∧
      ∀ v, pagesOf s.brkCurrent ≤ v → v < pagesOf c.newBrk → c.kmalloc v = true

instance : Decidable (s.Fits c) := by
  unfold Fits
  infer_instance

/-! ## Growth -/

/-- The process with the frames `new` at the pages from `v` on. -/
structure Grown (s s' : Process) (v : Nat) (new : List Nat) : Prop where
  start : s'.brkStart = s.brkStart
  tracker : s'.tracker = s.tracker ++ new
  free : new ++ s'.free <+ s.free
  entry : ∀ u, s'.entry u = if v ≤ u ∧ u < v + new.length then new[u - v]? else s.entry u
  zero : ∀ f ∈ new, s'.page f = fun _ => 0
  others : ∀ f, f ∉ s.free → s'.page f = s.page f

theorem Grown.trans {t : Process} {f : Nat} {rest : List Nat} (distinct : s.free.Nodup)
    (first : Grown s t v [f]) (others : Grown t s' (v + 1) rest) : Grown s s' v (f :: rest) := by
  have free : f :: (rest ++ s'.free) <+ s.free := (others.free.cons_cons f).trans first.free
  refine ⟨others.start.trans first.start, ?_, free, ?_, ?_, ?_⟩
  · rw [others.tracker, first.tracker, append_assoc, singleton_append]
  · intro u
    rw [others.entry, first.entry, length_singleton, length_cons]
    rcases Nat.lt_trichotomy u v with before | here | after
    · rw [if_neg (by omega), if_neg (by omega), if_neg (by omega)]
    · subst here
      rw [if_neg (by omega), if_pos (by omega), if_pos (by omega), Nat.sub_self]
      rfl
    · have next : u - v = u - (v + 1) + 1 := by omega
      by_cases inside : u < v + 1 + rest.length
      · rw [if_pos (by omega), if_pos (by omega), next, getElem?_cons_succ]
      · rw [if_neg (by omega), if_neg (by omega), if_neg (by omega)]
  · intro g member
    rcases mem_cons.mp member with rfl | later
    · have once := (nodup_cons.mp (distinct.sublist first.free)).1
      rw [others.others g once, first.zero g (mem_singleton.mpr rfl)]
    · exact others.zero g later
  · intro g outside
    have apart : g ∉ t.free := fun member =>
      outside (first.free.subset (mem_append_right _ member))
    rw [others.others g apart, first.others g outside]

theorem Books.grown {heap new : List Nat} {b : Nat} (books : s.Books heap)
    (grown : Grown s s' (pagesOf s.brkCurrent) new)
    (size : pagesOf b = pagesOf s.brkCurrent + new.length) :
    Books { s' with brkCurrent := b } (heap ++ new) := by
  obtain ⟨others, tracked⟩ := books.tracked
  have before := books.size
  refine ⟨⟨others, ?_⟩, ?_, ?_, ?_, ?_⟩
  · change others ++ (heap ++ new) = s'.tracker
    rw [grown.tracker, ← tracked, append_assoc]
  · change pagesOf s'.brkStart + _ = pagesOf b
    rw [grown.start, length_append, size]
    omega
  · intro v low high
    change s'.entry v = (heap ++ new)[v - pagesOf s'.brkStart]?
    change pagesOf s'.brkStart ≤ v at low
    change v < pagesOf s'.brkStart + heapPages at high
    rw [grown.start] at low high ⊢
    rw [grown.entry]
    by_cases old : v < pagesOf s.brkCurrent
    · rw [if_neg (by omega), getElem?_append_left (by omega), books.backed v low high]
    · rw [getElem?_append_right (by omega),
        show v - pagesOf s.brkStart - heap.length = v - pagesOf s.brkCurrent by omega]
      split
      · rfl
      · rw [books.backed v low high, getElem?_eq_none (by omega), getElem?_eq_none (by omega)]
  · change (s'.tracker ++ s'.free).Nodup
    rw [grown.tracker, append_assoc]
    exact books.once.sublist (grown.free.append_left s.tracker)
  · refine ⟨grown.start ▸ books.user.1, fun v below => ?_⟩
    change s'.entry v = none
    rw [grown.entry, if_neg, books.user.2 v below]
    have := books.user.1
    omega

/-- An empty heap in user space, and an allocator that holds no frame twice. -/
def Started (s : Process) : Prop := s.brkCurrent = s.brkStart ∧ s.Books []

def Step (s : Process) (c : Call) (t : Process) : Prop := (s.sysBrk c).map Prod.snd = some t

/-- The heap begins at 0x8001000; frame 4 is tracked and frame 9 holds its page table. -/
def fresh : Process :=
  ⟨0x8001000, 0x8001000, fun _ => none, fun slot => if slot = 32 then some 9 else none, [4], 256,
    [5, 6, 7], fun _ _ => 9⟩

def brk (newBrk : Nat) : Call := ⟨newBrk, fun _ => true⟩

end Process

end CactKernel.Brk
