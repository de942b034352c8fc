import Mathlib.Data.List.Nodup

/-! # Chains through a link field

A heap is seen one field at a time: the field `next` of every node is a function
`next : α → Option α`. `Chain next h l` says that following `next` from `h`
visits exactly the nodes of `l`, in order, and then stops. A node determines
the rest of its chain, so a chain never repeats a node. -/

set_option autoImplicit false

namespace Lib

open List Function

variable {α : Type}

def Chain (next : α → Option α) : Option α → List α → Prop
  | h, [] => h = none
  | h, a :: l => h = some a ∧ Chain next (next a) l

@[simp] theorem chain_nil (next : α → Option α) (h : Option α) : Chain next h [] ↔ h = none :=
  Iff.rfl

@[simp] theorem chain_cons (next : α → Option α) (h : Option α) (a : α) (l : List α) :
    Chain next h (a :: l) ↔ h = some a ∧ Chain next (next a) l := Iff.rfl

variable {next : α → Option α} {l m front back : List α} {h : Option α} {a b : α}

theorem Chain.unique (left : Chain next h l) (right : Chain next h m) : l = m := by
  induction l generalizing m h with
  | nil =>
    cases m with
    | nil => rfl
    | cons b m => simp_all
  | cons a l ih =>
    cases m with
    | nil => simp_all
    | cons b m =>
      obtain ⟨rfl, left⟩ := left
      obtain ⟨same, right⟩ := right
      cases same
      rw [ih left right]

theorem Chain.from_mem (chain : Chain next h (l ++ a :: m)) : Chain next (some a) (a :: m) := by
  induction l generalizing m h a with
  | nil =>
    simp only [nil_append, chain_cons] at chain
    exact ⟨rfl, chain.2⟩
  | cons b l ih => exact ih chain.2

theorem Chain.nodup (chain : Chain next h l) : l.Nodup := by
  induction l generalizing h with
  | nil => exact nodup_nil
  | cons a l ih =>
    refine nodup_cons.mpr ⟨?_, ih chain.2⟩
    intro member
    obtain ⟨front, back, split⟩ := append_of_mem member
    have whole : Chain next (some a) (a :: (front ++ a :: back)) := ⟨rfl, split ▸ chain.2⟩
    have rest : Chain next (some a) (a :: back) := by
      have fromA : Chain next (next a) (front ++ a :: back) := whole.2
      exact fromA.from_mem
    have same := whole.unique rest
    have lengths := congrArg length same
    simp only [length_cons, length_append] at lengths
    omega

theorem Chain.congr {next' : α → Option α} (chain : Chain next h l)
    (same : ∀ a ∈ l, next' a = next a) : Chain next' h l := by
  induction l generalizing h with
  | nil => exact chain
  | cons a l ih =>
    refine ⟨chain.1, ?_⟩
    rw [same a (mem_cons_self ..)]
    exact ih chain.2 fun b member => same b (mem_cons_of_mem _ member)

theorem Chain.head_eq (chain : Chain next h l) : h = l.head? := by
  cases l with
  | nil => exact chain
  | cons a l => exact chain.1

theorem Chain.next_eq (chain : Chain next h (l ++ a :: m)) : next a = m.head? :=
  (chain.from_mem.2).head_eq

/-- `a` is met when `next` is followed from `h`. -/
inductive Linked (next : α → Option α) : Option α → α → Prop
  | here (a : α) : Linked next (some a) a
  | later {a b : α} (rest : Linked next (next b) a) : Linked next (some b) a

theorem Linked.follow (linked : Linked next h a) (link : next a = some b) : Linked next h b := by
  induction linked with
  | here a => exact .later (link ▸ .here b)
  | later _ ih => exact .later (ih link)

theorem Chain.linked_iff (chain : Chain next h l) : (Linked next h a ↔ a ∈ l) := by
  induction l generalizing h a with
  | nil =>
    subst chain
    refine ⟨fun linked => ?_, fun member => absurd member not_mem_nil⟩
    cases linked
  | cons b l ih =>
    obtain ⟨rfl, rest⟩ := chain
    rw [mem_cons]
    constructor
    · intro linked
      cases linked with
      | here => exact Or.inl rfl
      | later further => exact Or.inr ((ih rest).mp further)
    · rintro (rfl | member)
      · exact .here a
      · exact .later ((ih rest).mpr member)

theorem Chain.not_mem (chain : Chain next h (front ++ a :: back)) : a ∉ front ++ back :=
  (nodup_cons.mp (nodup_middle.mp chain.nodup)).1

theorem Chain.mem_unlink (chain : Chain next h (front ++ a :: back)) :
    b ∈ front ++ back ↔ b ∈ front ++ a :: back ∧ b ≠ a := by
  rw [perm_middle.mem_iff, mem_cons]
  constructor
  · intro member
    exact ⟨.inr member, fun same => chain.not_mem (same ▸ member)⟩
  · exact fun both => both.1.resolve_left both.2

variable [DecidableEq α]

theorem Chain.update {v : Option α} (chain : Chain next h l) (outside : b ∉ l) :
    Chain (Function.update next b v) h l := by
  refine chain.congr fun a member => ?_
  have different : a ≠ b := fun same => outside (same ▸ member)
  simp [different]

theorem Chain.splice {v : Option α} {old : List α} (chain : Chain next h (l ++ a :: old))
    (outside : a ∉ m) (tail : Chain next v m) :
    Chain (Function.update next a v) h (l ++ a :: m) := by
  induction l generalizing h with
  | nil =>
    refine ⟨chain.1, ?_⟩
    simpa using tail.update outside
  | cons b l ih =>
    have distinct := chain.nodup
    have different : b ≠ a := by
      rintro rfl
      simp at distinct
    refine ⟨chain.1, ?_⟩
    rw [update_of_ne different]
    exact ih chain.2

theorem Chain.pushFront (chain : Chain next h l) (outside : a ∉ l) :
    Chain (Function.update next a h) (some a) (a :: l) := by
  refine ⟨rfl, ?_⟩
  rw [update_self]
  exact chain.update outside

theorem Chain.pushBack (chain : Chain next h (l ++ [a])) (outside : b ∉ l ++ [a])
    (ends : next b = none) : Chain (Function.update next a (some b)) h (l ++ [a] ++ [b]) := by
  have alone : Chain next (some b) [b] := ⟨rfl, ends⟩
  have differ : a ∉ [b] := by
    rw [mem_singleton]
    rintro rfl
    exact outside (mem_append_right l (mem_singleton_self a))
  rw [append_assoc]
  exact chain.splice differ alone

/-- The field of the node before `a` now leads past it. -/
def skip (next : α → Option α) (before : Option α) (a : α) : α → Option α :=
  match before with
  | some b => Function.update next b (next a)
  | none => next

/-- The head of the chain now leads past `a` if no node is before it. -/
def skipHead (next : α → Option α) (h before : Option α) (a : α) : Option α :=
  match before with
  | some _ => h
  | none => next a

theorem Chain.skipped (chain : Chain next h (front ++ a :: back)) :
    Chain (skip next front.getLast? a) (skipHead next h front.getLast? a) (front ++ back) := by
  have distinct := chain.nodup
  have rest : Chain next (next a) back := chain.from_mem.2
  rcases eq_nil_or_concat' front with rfl | ⟨front, b, rfl⟩
  · exact rest
  rw [append_assoc, singleton_append] at chain distinct
  have last : b ∉ back := by
    intro member
    have tail : (b :: a :: back).Nodup := (nodup_append.mp distinct).2.1
    exact (nodup_cons.mp tail).1 (mem_cons_of_mem a member)
  rw [getLast?_concat, append_assoc, singleton_append]
  exact chain.splice last rest

theorem Chain.unlink (chain : Chain next h (front ++ a :: back)) :
    Chain (Function.update (skip next front.getLast? a) a none)
      (skipHead next h front.getLast? a) (front ++ back) :=
  chain.skipped.update chain.not_mem

end Lib
