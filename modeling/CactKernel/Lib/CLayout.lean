import Mathlib.Tactic.Ring

/-! # Layout of C structs

A struct is the list of its members with their sizes and alignments. Members
are placed in order, each at the next multiple of its alignment, and the size
of the struct is rounded up to its own alignment. A nested struct or an array
is a member with the size and the alignment of its type. -/

set_option autoImplicit false

namespace Lib

open List

structure Member (ι : Type) where
  name : ι
  size : Nat
  align : Nat
  deriving DecidableEq, Repr

variable {ι : Type}

def alignUp (n align : Nat) : Nat := (n + (align - 1)) / align * align

theorem le_alignUp (n align : Nat) (positive : 0 < align) : n ≤ alignUp n align := by
  unfold alignUp
  have split := Nat.div_add_mod (n + (align - 1)) align
  have small := Nat.mod_lt (n + (align - 1)) positive
  rw [Nat.mul_comm] at split
  omega

/-- The members with their offsets, the first free byte being `start`. -/
def place : Nat → List (Member ι) → List (Member ι × Nat)
  | _, [] => []
  | start, m :: rest =>
    (m, alignUp start m.align) :: place (alignUp start m.align + m.size) rest

/-- The first byte after the last member. -/
def endOf : Nat → List (Member ι) → Nat
  | start, [] => start
  | start, m :: rest => endOf (alignUp start m.align + m.size) rest

def structAlign (members : List (Member ι)) : Nat :=
  members.foldr (fun m a => max m.align a) 1

def structSize (members : List (Member ι)) : Nat :=
  alignUp (endOf 0 members) (structAlign members)

def offsetOf [DecidableEq ι] (members : List (Member ι)) (name : ι) : Nat :=
  match (place 0 members).find? fun p => p.1.name = name with
  | some p => p.2
  | none => 0

theorem structAlign_pos (members : List (Member ι)) : 0 < structAlign members := by
  induction members with
  | nil => exact Nat.one_pos
  | cons m rest ih => exact Nat.lt_of_lt_of_le ih (Nat.le_max_right ..)

theorem le_endOf (members : List (Member ι)) (start : Nat) (aligned : ∀ m ∈ members, 0 < m.align) :
    start ≤ endOf start members := by
  induction members generalizing start with
  | nil => exact Nat.le_refl _
  | cons m rest ih =>
    have first := le_alignUp start m.align (aligned m (mem_cons_self ..))
    have others := ih (alignUp start m.align + m.size)
      fun n member => aligned n (mem_cons_of_mem _ member)
    simp only [endOf]
    omega

theorem place_le_endOf : ∀ (members : List (Member ι)) (start : Nat),
    (∀ m ∈ members, 0 < m.align) → ∀ p ∈ place start members,
      p.2 + p.1.size ≤ endOf start members := by
  intro members
  induction members with
  | nil => intro start _ p member; exact absurd member not_mem_nil
  | cons m rest ih =>
    intro start aligned p member
    have alignedRest : ∀ n ∈ rest, 0 < n.align :=
      fun n inRest => aligned n (mem_cons_of_mem _ inRest)
    simp only [place, mem_cons] at member
    rcases member with rfl | inRest
    · exact le_endOf rest _ alignedRest
    · exact ih _ alignedRest p inRest

theorem place_le_structSize {members : List (Member ι)} (aligned : ∀ m ∈ members, 0 < m.align)
    {p : Member ι × Nat} (member : p ∈ place 0 members) :
    p.2 + p.1.size ≤ structSize members := by
  have inner := place_le_endOf members 0 aligned p member
  have outer := le_alignUp (endOf 0 members) (structAlign members) (structAlign_pos members)
  unfold structSize
  omega

theorem offsetOf_le_structSize [DecidableEq ι] {members : List (Member ι)} {m : Member ι}
    (aligned : ∀ n ∈ members, 0 < n.align)
    (unique : ∀ n ∈ members, n.name = m.name → n = m) (member : m ∈ members) :
    offsetOf members m.name + m.size ≤ structSize members := by
  have placed : ∀ (l : List (Member ι)) (start : Nat), (place start l).map Prod.fst = l := by
    intro l
    induction l with
    | nil => intro start; rfl
    | cons n rest ih => intro start; simp [place, ih]
  have inPlace : m ∈ (place 0 members).map Prod.fst := by
    rw [placed]
    exact member
  obtain ⟨q, inQ, nameQ⟩ := mem_map.mp inPlace
  unfold offsetOf
  cases found : (place 0 members).find? fun p => p.1.name = m.name with
  | none =>
    have absent := find?_eq_none.mp found q inQ
    rw [nameQ] at absent
    exact absurd absent (by simp)
  | some p =>
    have inP := mem_of_find?_eq_some found
    have named : p.1.name = m.name := by
      have holds := find?_some found
      simpa using holds
    have inMembers : p.1 ∈ members := by
      have mapped := mem_map_of_mem (f := Prod.fst) inP
      rwa [placed] at mapped
    have size := place_le_structSize aligned inP
    rw [unique p.1 inMembers named] at size
    exact size

end Lib
