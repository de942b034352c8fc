import Mathlib.Tactic.Ring

/-! # Tables whose entries change one at a time -/

set_option autoImplicit false

namespace Lib

open List

variable {α : Type}

theorem exists_update_iff_or {ι : Type} [DecidableEq ι] {P : α → Prop} {f : ι → α} {i : ι} {a : α}
    (free : ¬ P (f i)) : (∃ j, P (Function.update f i a j)) ↔ (∃ j, P (f j)) ∨ P a := by
  refine (Function.exists_update_iff f (p := fun _ => P)).trans
    (or_comm.trans (or_congr_left ?_))
  constructor
  · rintro ⟨j, -, holds⟩
    exact ⟨j, holds⟩
  · rintro ⟨j, holds⟩
    exact ⟨j, fun here => free (here ▸ holds), holds⟩

theorem sum_set (g : α → Nat) {table : List α} {i : Nat} {old : α} (new : α)
    (found : table[i]? = some old) :
    ((table.set i new).map g).sum + g old = (table.map g).sum + g new := by
  induction table generalizing i old new with
  | nil => simp at found
  | cons first rest ih =>
    cases i with
    | zero =>
      simp only [getElem?_cons_zero, Option.some.injEq] at found
      subst found
      simp only [set_cons_zero, map_cons, sum_cons]
      omega
    | succ i =>
      rw [getElem?_cons_succ] at found
      have moved := ih new found
      simp only [set_cons_succ, map_cons, sum_cons]
      omega

theorem count_set [BEq α] [LawfulBEq α] [DecidableEq α] (a : α) {table : List α} {i : Nat}
    {old : α} (new : α)
    (found : table[i]? = some old) :
    (table.set i new).count a + (if old = a then 1 else 0) =
      table.count a + (if new = a then 1 else 0) := by
  have asSum : ∀ l : List α, l.count a = (l.map fun x => if x = a then 1 else 0).sum := by
    intro l
    induction l with
    | nil => rfl
    | cons x l ih =>
      rw [count_cons, map_cons, sum_cons, ih, Nat.add_comm]
      simp
  rw [asSum, asSum]
  exact sum_set _ new found

theorem sum_set_congr {f g : α → Nat} {table : List α} {i : Nat} {old : α} (new : α)
    (found : table[i]? = some old)
    (others : ∀ j a, table[j]? = some a → j ≠ i → g a = f a) :
    ((table.set i new).map g).sum + f old = (table.map f).sum + g new := by
  have weighed : (table.set i new).map g = (table.map f).set i (g new) := by
    apply ext_getElem?
    intro j
    rw [getElem?_map, getElem?_set, getElem?_set, getElem?_map,
      length_map]
    by_cases same : i = j
    · subst same
      rw [if_pos rfl, if_pos rfl]
      split <;> rfl
    · rw [if_neg same, if_neg same]
      cases there : table[j]? with
      | none => rfl
      | some a => exact congrArg some (others j a there (Ne.symm same))
  have here : (table.map f)[i]? = some (f old) := by rw [getElem?_map, found]; rfl
  have moved := sum_set id (g new) here
  rw [weighed]
  simpa using moved

theorem le_sum (g : α → Nat) {table : List α} {i : Nat} {a : α} (found : table[i]? = some a) :
    g a ≤ (table.map g).sum := by
  induction table generalizing i a with
  | nil => cases found
  | cons first rest ih =>
    rw [map_cons, sum_cons]
    cases i with
    | zero =>
      cases found
      omega
    | succ i =>
      have bound := @ih i a found
      omega

theorem add_le_sum (g : α → Nat) {table : List α} {i j : Nat} {a b : α}
    (found : table[i]? = some a) : table[j]? = some b → i ≠ j → g a + g b ≤ (table.map g).sum := by
  induction table generalizing i j a b with
  | nil => cases found
  | cons first rest ih =>
    intro found' differ
    rw [map_cons, sum_cons]
    cases i with
    | zero =>
      cases j with
      | zero => exact absurd rfl differ
      | succ j =>
        cases found
        have bound : g b ≤ (rest.map g).sum := le_sum g found'
        omega
    | succ i =>
      cases j with
      | zero =>
        obtain rfl := Option.some.inj found'
        have bound : g a ≤ (rest.map g).sum := le_sum g found
        omega
      | succ j =>
        have bound := @ih i j a b found found' (by omega)
        omega

end Lib
