import Mathlib.Tactic.Ring

/-! # Ring buffers

A ring of `size` cells with the offset of its first element and the number of its
elements. `contents` lists the elements, oldest first; writing appends to it and
reading takes from its front, wherever the ring wraps around. -/

set_option autoImplicit false

namespace Lib

open List Function Nat

structure Ring (α : Type) (size : Nat) where
  mem : Nat → α
  off : Nat
  len : Nat
  off_lt : off < size
  len_le : len ≤ size

namespace Ring

variable {α : Type} {size : Nat}

def contents (r : Ring α size) : List α :=
  (List.range r.len).map fun i => r.mem ((r.off + i) % size)

@[simp] theorem length_contents (r : Ring α size) : r.contents.length = r.len := by
  rw [contents, length_map, length_range]

def empty (positive : 0 < size) (mem : Nat → α) : Ring α size :=
  ⟨mem, 0, 0, positive, Nat.zero_le _⟩

/-! ## Writing -/

def push (r : Ring α size) (x : α) (room : r.len < size) : Ring α size where
  mem := Function.update r.mem ((r.off + r.len) % size) x
  off := r.off
  len := r.len + 1
  off_lt := r.off_lt
  len_le := room

def pushAll : (xs : List α) → (r : Ring α size) → r.len + xs.length ≤ size → Ring α size
  | [], r, _ => r
  | x :: xs, r, room =>
    pushAll xs (r.push x (by rw [List.length_cons] at room; omega)) (by
      rw [List.length_cons] at room
      change r.len + 1 + xs.length ≤ size
      omega)

theorem wrap_eq {off i : Nat} (off_lt : off < size) (inside : i ≤ size) :
    (off + i) % size = if off + i < size then off + i else off + i - size := by
  split
  · rename_i low
    exact mod_eq_of_lt low
  · rename_i high
    rw [mod_eq_sub_mod (by omega), mod_eq_of_lt (by omega)]

theorem contents_push (r : Ring α size) (x : α) (room : r.len < size) :
    (r.push x room).contents = r.contents ++ [x] := by
  have start := r.off_lt
  rw [contents, contents]
  change (range (r.len + 1)).map _ = _
  rw [range_succ, map_append, map_singleton]
  congr 1
  · apply map_congr_left
    intro i member
    have before : i < r.len := mem_range.mp member
    apply update_of_ne
    -- two cells of a ring that is not full
    rw [push, wrap_eq start (by omega), wrap_eq start (by omega)]
    split <;> split <;> omega
  · exact congrArg (fun y => [y]) (update_self ..)

theorem contents_pushAll : ∀ (xs : List α) (r : Ring α size) (room : r.len + xs.length ≤ size),
    (pushAll xs r room).contents = r.contents ++ xs := by
  intro xs
  induction xs with
  | nil =>
    intro r room
    exact (append_nil _).symm
  | cons x xs ih =>
    intro r room
    rw [pushAll, ih, contents_push, append_assoc, singleton_append]

/-! ## Reading -/

/-- `n` cells from `off` on, and the offset after them. -/
def collect (mem : Nat → α) (size : Nat) : Nat → Nat → List α × Nat
  | 0, off => ([], off)
  | n + 1, off => (mem off :: (collect mem size n ((off + 1) % size)).1,
      (collect mem size n ((off + 1) % size)).2)

theorem collect_eq (mem : Nat → α) (n : Nat) {off : Nat} (off_lt : off < size) :
    collect mem size n off =
      ((List.range n).map fun i => mem ((off + i) % size), (off + n) % size) := by
  induction n generalizing off with
  | zero =>
    rw [collect, Nat.add_zero, Nat.mod_eq_of_lt off_lt]
    rfl
  | succ n ih =>
    have shift : ∀ i, ((off + 1) % size + i) % size = (off + (i + 1)) % size := by
      intro i
      rw [Nat.mod_add_mod, Nat.add_assoc, Nat.add_comm 1 i]
    have first : (off + 0) % size = off := mod_eq_of_lt off_lt
    rw [collect, ih (mod_lt _ (by omega)), shift, range_succ_eq_map, map_cons,
      map_map, first]
    congr 2
    apply map_congr_left
    intro i _
    rw [shift]
    rfl

theorem collect_lt (mem : Nat → α) (n : Nat) {off : Nat} (off_lt : off < size) :
    (collect mem size n off).2 < size := by
  rw [collect_eq mem n off_lt]
  exact mod_lt _ (by omega)

/-- An emptied ring starts over at the first cell. -/
def pop (r : Ring α size) (max : Nat) : List α × Ring α size :=
  let n := min r.len max
  ((collect r.mem size n r.off).1,
    if r.len - n = 0 then ⟨r.mem, 0, 0, Nat.zero_lt_of_lt r.off_lt, Nat.zero_le _⟩
    else ⟨r.mem, (collect r.mem size n r.off).2, r.len - n, collect_lt r.mem n r.off_lt,
      Nat.le_trans (Nat.sub_le _ _) r.len_le⟩)

theorem mem_pop (r : Ring α size) (max : Nat) : (r.pop max).2.mem = r.mem := by
  rw [pop]
  dsimp only
  split <;> rfl

theorem pop_fst (r : Ring α size) (max : Nat) : (r.pop max).1 = r.contents.take max := by
  rw [pop]
  dsimp only
  rw [collect_eq r.mem _ r.off_lt, contents, ← map_take, take_range, Nat.min_comm]

theorem contents_pop (r : Ring α size) (max : Nat) :
    (r.pop max).2.contents = r.contents.drop max := by
  rw [pop]
  split
  · rename_i emptied
    rw [drop_eq_nil_of_le (by rw [length_contents]; omega)]
    rfl
  rename_i left
  have short : max < r.len := by omega
  rw [contents, contents, ← map_drop]
  dsimp only
  rw [collect_eq r.mem _ r.off_lt, Nat.min_eq_right (Nat.le_of_lt short)]
  apply ext_getElem?
  intro i
  rw [getElem?_map, getElem?_map, getElem?_drop]
  by_cases inside : i < r.len - max
  · rw [getElem?_range inside, getElem?_range (by omega), Option.map_some,
      Option.map_some, Nat.mod_add_mod, Nat.add_assoc]
  rw [getElem?_eq_none (by rw [length_range]; omega),
    getElem?_eq_none (by rw [length_range]; omega)]
  rfl

end Ring

end Lib
