import CactKernel.Vfs.DescriptorRuns
import Mathlib.Data.List.Perm.Basic

/-! # Open file descriptions over nodes with hooks

`file_alloc`, `file_ref`, `file_unref` and the calls that pass descriptions
around, for one process and for nodes of any kind. The state behind the nodes
changes only through their two hooks, `ops->open` and `ops->close`; `Vfs.Files` has
the same calls for all processes, on the nodes of the kernel.

A description that was sent over a socket and not received yet is `carried`; from
there it is received, or dropped when the socket goes. -/

set_option autoImplicit false

namespace CactKernel.Vfs

open List Option Nat Or

/-- `none` is a panic in the hook. -/
structure Hooks (ν σ : Type) where
  onOpen : ν → σ → σ
  onClose : ν → σ → Option σ

/-- `file_t`. -/
structure Description (ν : Type) where
  node : ν
  refcount : Nat

structure OpenFiles (ν σ : Type) where
  files : List (Option (Description ν))
  fds : List (Option Nat)
  carried : List Nat
  sys : σ

/-- The calls that share and drop descriptions. -/
inductive Share
  | close (fd : Nat)
  | dup (fd start : Nat)
  | dup2 (fd newfd : Nat)
  | send (fd : Nat)
  | receive (i : Nat)
  | discard (i : Nat)

namespace OpenFiles

variable {ν σ : Type}

def file (w : OpenFiles ν σ) (f : Nat) : Option (Description ν) := w.files[f]?.join

def setFile (w : OpenFiles ν σ) (f : Nat) (x : Option (Description ν)) : OpenFiles ν σ :=
  { w with files := w.files.set f x }

def setFd (w : OpenFiles ν σ) (fd : Nat) (x : Option Nat) : OpenFiles ν σ :=
  { w with fds := w.fds.set fd x }

def getFile (w : OpenFiles ν σ) (fd : Nat) : Option Nat := w.fds[fd]?.join

/-- The new description comes last. -/
def fileAlloc (hooks : Hooks ν σ) (node : ν) (w : OpenFiles ν σ) : OpenFiles ν σ :=
  { w with files := w.files ++ [some ⟨node, 1⟩], sys := hooks.onOpen node w.sys }

def fileRef (f : Nat) (w : OpenFiles ν σ) : OpenFiles ν σ :=
  match w.file f with
  | some d => w.setFile f (some { d with refcount := d.refcount + 1 })
  | none => w

def fileUnref (hooks : Hooks ν σ) (f : Nat) (w : OpenFiles ν σ) : Option (OpenFiles ν σ) :=
  match w.file f with
  | none => some w
  | some d =>
    if d.refcount = 0 then some w
    else if d.refcount = 1 then
      (hooks.onClose d.node w.sys).map fun sys => { w.setFile f none with sys := sys }
    else some (w.setFile f (some { d with refcount := d.refcount - 1 }))

def allocFd (hooks : Hooks ν σ) (node : ν) (heap : Bool) (w : OpenFiles ν σ) :
    Option (Option Nat × OpenFiles ν σ) :=
  if heap then
    let f := w.files.length
    let made := w.fileAlloc hooks node
    match Kernel.freeSlot made.fds 3 with
    | some i => some (some i, made.setFd i (some f))
    | none => (made.fileUnref hooks f).map fun dropped => (none, dropped)
  else some (none, w)

/-- A call up to the `file_unref` it ends with, and what that is called for. -/
def prepare (w : OpenFiles ν σ) : Share → OpenFiles ν σ × Option Nat
  | .close fd =>
    match w.getFile fd with
    | none => (w, none)
    | some f => (w.setFd fd none, some f)
  | .dup fd start =>
    match w.getFile fd, Kernel.freeSlot w.fds start with
    | some f, some i => ((w.fileRef f).setFd i (some f), none)
    | _, _ => (w, none)
  | .dup2 fd newfd =>
    match w.getFile fd with
    | none => (w, none)
    | some f =>
      if newfd ≥ maxFd ∨ fd = newfd then (w, none)
      else ((w.fileRef f).setFd newfd (some f), w.getFile newfd)
  | .send fd =>
    match w.getFile fd with
    | none => (w, none)
    | some f => ({ w.fileRef f with carried := w.carried ++ [f] }, none)
  | .receive i =>
    match w.carried[i]? with
    | none => (w, none)
    | some f =>
      let taken := { w with carried := w.carried.eraseIdx i }
      match Kernel.freeSlot w.fds 3 with
      | some fd => (taken.setFd fd (some f), none)
      | none => (taken, some f)
  | .discard i =>
    match w.carried[i]? with
    | none => (w, none)
    | some f => ({ w with carried := w.carried.eraseIdx i }, some f)

def share (hooks : Hooks ν σ) (w : OpenFiles ν σ) (a : Share) : Option (OpenFiles ν σ) :=
  match w.prepare a with
  | (w, none) => some w
  | (w, some f) => w.fileUnref hooks f

/-- The node whose last reference a `file_unref` drops. -/
def lastOf (w : OpenFiles ν σ) (f : Nat) : Option ν :=
  match w.file f with
  | some d => if d.refcount = 1 then some d.node else none
  | none => none

/-- The node that a call closes. -/
def closes (w : OpenFiles ν σ) (a : Share) : Option ν :=
  (w.prepare a).2.bind (w.prepare a).1.lastOf

/-! ## Live descriptions -/

def weigh [DecidableEq ν] (node : ν) : Option (Description ν) → Nat
  | some d => if d.node = node then 1 else 0
  | none => 0

def live [DecidableEq ν] (w : OpenFiles ν σ) (node : ν) : Nat := (w.files.map (weigh node)).sum

variable {f : Nat} {w : OpenFiles ν σ} {d : Description ν}

theorem file_in_table (found : w.file f = some d) : w.files[f]? = some (some d) :=
  join_eq_some_iff.mp found

theorem live_setFile [DecidableEq ν] (found : w.file f = some d) (x : Option (Description ν))
    (node : ν) :
    (w.setFile f x).live node + (if d.node = node then 1 else 0) =
      w.live node + weigh node x :=
  Lib.sum_set (weigh node) x (file_in_table found)

theorem file_fileAlloc (hooks : Hooks ν σ) (node : ν) (w : OpenFiles ν σ) (g : Nat) :
    (w.fileAlloc hooks node).file g =
      if g = w.files.length then some ⟨node, 1⟩ else w.file g := by
  simp only [file, fileAlloc]
  rcases Nat.lt_trichotomy g w.files.length with before | same | after
  · rw [getElem?_append_left before, if_neg (by omega)]
  · rw [same, getElem?_concat_length, if_pos rfl, join_some]
  · rw [if_neg (by omega), getElem?_eq_none (by simp; omega),
      getElem?_eq_none (by omega)]

theorem live_fileAlloc [DecidableEq ν] (hooks : Hooks ν σ) (node n : ν) (w : OpenFiles ν σ) :
    (w.fileAlloc hooks node).live n = w.live n + if node = n then 1 else 0 := by
  simp [live, fileAlloc, weigh]

theorem live_fileRef [DecidableEq ν] (w : OpenFiles ν σ) (f : Nat) (n : ν) :
    (w.fileRef f).live n = w.live n := by
  rw [fileRef]
  cases found : w.file f with
  | none => rfl
  | some d =>
    have moved := live_setFile found (some { d with refcount := d.refcount + 1 }) n
    simp only [weigh] at moved
    dsimp only
    omega

@[simp] theorem sys_fileRef (w : OpenFiles ν σ) (f : Nat) : (w.fileRef f).sys = w.sys := by
  rw [fileRef]
  split <;> rfl

/-! ## What a call does behind the nodes -/

variable [DecidableEq ν] {hooks : Hooks ν σ} {w w' : OpenFiles ν σ}

/-- One description on the node has gone. -/
def OneLess (w w' : OpenFiles ν σ) (node : ν) : Prop :=
  0 < w.live node ∧ ∀ n, w'.live n + (if node = n then 1 else 0) = w.live n

theorem live_pos (found : w.file f = some d) : 0 < w.live d.node := by
  have moved := live_setFile found none d.node
  simp only [weigh, if_pos] at moved
  omega

theorem fileUnref_cases (run : w.fileUnref hooks f = some w') :
    match w.lastOf f with
    | some node => hooks.onClose node w.sys = some w'.sys ∧ w.OneLess w' node
    | none => w'.sys = w.sys ∧ ∀ n, w'.live n = w.live n := by
  rw [fileUnref] at run
  rw [lastOf]
  cases found : w.file f with
  | none =>
    rw [found] at run
    cases run
    exact ⟨rfl, fun _ => rfl⟩
  | some d =>
    rw [found] at run
    dsimp only at run ⊢
    by_cases dead : d.refcount = 0
    · rw [if_pos dead] at run
      cases run
      rw [if_neg (by omega)]
      exact ⟨rfl, fun _ => rfl⟩
    rw [if_neg dead] at run
    by_cases last : d.refcount = 1
    · rw [if_pos last] at run
      rw [if_pos last]
      obtain ⟨sys, closed, rfl⟩ := map_eq_some_iff.mp run
      exact ⟨closed, live_pos found, fun n => live_setFile found none n⟩
    rw [if_neg last] at run
    rw [if_neg last]
    cases run
    refine ⟨rfl, ?_⟩
    intro n
    have moved := live_setFile found (some { d with refcount := d.refcount - 1 }) n
    simp only [weigh] at moved
    omega

omit [DecidableEq ν] in
theorem prepare_sys (w : OpenFiles ν σ) (a : Share) : (w.prepare a).1.sys = w.sys := by
  cases a <;> rw [prepare] <;> (repeat' split) <;> simp [setFd]

theorem prepare_live (w : OpenFiles ν σ) (a : Share) (n : ν) :
    (w.prepare a).1.live n = w.live n := by
  have same : ∀ u : OpenFiles ν σ, u.files = w.files → u.live n = w.live n := by
    intro u files
    rw [live, live, files]
  have more : ∀ (f : Nat) (u : OpenFiles ν σ), u.files = (w.fileRef f).files →
      u.live n = w.live n := by
    intro f u files
    rw [← live_fileRef w f n, live, live, files]
  cases a with
  | dup fd start =>
    rw [prepare]
    split
    · exact more _ _ rfl
    · rfl
  | dup2 fd newfd =>
    rw [prepare]
    split
    · rfl
    split
    · rfl
    · exact more _ _ rfl
  | send fd =>
    rw [prepare]
    split
    · rfl
    · exact more _ _ rfl
  | close fd | discard i =>
    rw [prepare]
    split
    · rfl
    · exact same _ rfl
  | receive i =>
    rw [prepare]
    split
    · rfl
    split <;> exact same _ rfl

theorem share_cases {a : Share} (run : w.share hooks a = some w') :
    match w.closes a with
    | some node => hooks.onClose node w.sys = some w'.sys ∧ w.OneLess w' node
    | none => w'.sys = w.sys ∧ ∀ n, w'.live n = w.live n := by
  have sys := prepare_sys w a
  have same := prepare_live w a
  rw [share] at run
  rw [closes]
  split at run
  · rename_i u none_left
    cases run
    rw [none_left] at sys same ⊢
    exact ⟨sys, same⟩
  rename_i u f one_left
  rw [one_left] at sys same ⊢
  have dropped := fileUnref_cases run
  dsimp only [bind_some] at sys same ⊢
  cases last : u.lastOf f with
  | none =>
    rw [last] at dropped
    exact ⟨dropped.1.trans sys, fun n => (dropped.2 n).trans (same n)⟩
  | some node =>
    rw [last] at dropped
    obtain ⟨closed, some, less⟩ := dropped
    refine ⟨sys ▸ closed, (same node) ▸ some, ?_⟩
    intro n
    rw [← same n]
    exact less n

theorem allocFd_cases {node : ν} {heap : Bool} {r : Option Nat × OpenFiles ν σ}
    (run : w.allocFd hooks node heap = some r) :
    (heap = false ∧ r = (none, w)) ∨
    (heap = true ∧ ∃ i, Kernel.freeSlot w.fds 3 = some i ∧ r.1 = some i ∧
      r.2.sys = hooks.onOpen node w.sys ∧
      ∀ n, r.2.live n = w.live n + if node = n then 1 else 0) ∨
    (heap = true ∧ Kernel.freeSlot w.fds 3 = none ∧ r.1 = none ∧
      hooks.onClose node (hooks.onOpen node w.sys) = some r.2.sys ∧
      ∀ n, r.2.live n = w.live n) := by
  rw [allocFd] at run
  split at run
  · rename_i heap
    change (match Kernel.freeSlot w.fds 3 with
      | some i => _
      | none => _) = some r at run
    cases free : Kernel.freeSlot w.fds 3 with
    | some i =>
      rw [free] at run
      cases run
      exact inr (inl ⟨heap, i, rfl, rfl, rfl, fun n => live_fileAlloc hooks node n w⟩)
    | none =>
      rw [free] at run
      obtain ⟨u, dropped, rfl⟩ := map_eq_some_iff.mp run
      have last : (w.fileAlloc hooks node).lastOf w.files.length = some node := by
        rw [lastOf, file_fileAlloc, if_pos rfl]
        rfl
      have closed := fileUnref_cases dropped
      rw [last] at closed
      refine inr (inr ⟨heap, rfl, rfl, closed.1, ?_⟩)
      intro n
      have less := closed.2.2 n
      rw [live_fileAlloc] at less
      exact add_right_cancel less
  · rename_i empty
    exact inl ⟨by simpa using empty, (some.inj run).symm⟩

end OpenFiles

end CactKernel.Vfs
