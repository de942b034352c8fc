import CactKernel.Http.Framing

/-! # What the decoder copies

A chunked body is a list of chunks. The decoder goes over the same chunks as the scanner,
but for each it copies the bytes behind the data. -/

set_option autoImplicit false

namespace CactKernel.Http

open Lib List Option

/-! ## The chunks of a body -/

/-- The chunks that are there, each with the bytes behind it, and whether the last chunk is
there too. -/
def chunksFrom : Nat → List UInt8 → List (List UInt8 × List UInt8) × Bool
  | 0, _ => ([], false)
  | fuel + 1, rest =>
    match rest.findIdx? fun b => b = lf with
    | none => ([], false)
    | some n =>
      match chunkSize (rest.take n) with
      | none => ([], false)
      | some size =>
        if size = 0 then ([], true)
        else if maxChunkBytes < size then ([], false)
        else
          let after := rest.drop (n + 1)
          if after.length < size + 2 ∨ (after.drop size).take 2 ≠ crlf then ([], false)
          else
            let later := chunksFrom fuel (after.drop (size + 2))
            ((after.take size, after.drop size) :: later.1, later.2)

def chunksOf (body : List UInt8) : List (List UInt8 × List UInt8) × Bool :=
  chunksFrom (body.length + 1) body

/-- A chunk at the start of a body. -/
structure First (rest : List UInt8) (n size : Nat) : Prop where
  line : rest.findIdx? (fun b => b = lf) = some n
  sizeEq : chunkSize (rest.take n) = some size
  positive : size ≠ 0
  small : ¬ maxChunkBytes < size
  inside : n + 1 + size + 2 ≤ rest.length
  ending : (rest.drop (n + 1 + size)).take 2 = crlf

variable {rest body : List UInt8} {n size : Nat}

theorem chunksFrom_first (first : First rest n size) (fuel : Nat) : chunksFrom (fuel + 1) rest =
      (((rest.drop (n + 1)).take size, rest.drop (n + 1 + size)) ::
        (chunksFrom fuel (rest.drop (n + 1 + size + 2))).1,
        (chunksFrom fuel (rest.drop (n + 1 + size + 2))).2) := by
  have inside := first.inside
  have fine : ¬ ((rest.drop (n + 1)).length < size + 2 ∨
      ((rest.drop (n + 1)).drop size).take 2 ≠ crlf) := by
    rintro (short | differ)
    · rw [length_drop] at short
      omega
    · rw [drop_drop] at differ
      exact differ first.ending
  rw [chunksFrom, first.line]
  dsimp only
  rw [first.sizeEq]
  dsimp only
  rw [if_neg first.positive, if_neg first.small, if_neg fine, drop_drop, drop_drop]
  rfl

theorem chunk_or_none (rest : List UInt8) : (∃ n size, First rest n size) ∨
    ∃ last, ∀ fuel, chunksFrom (fuel + 1) rest = ([], last) := by
  by_cases chunk : ∃ n size, First rest n size
  · exact .inl chunk
  right
  cases line : rest.findIdx? fun b => b = lf with
  | none => exact ⟨false, fun fuel => by rw [chunksFrom, line]⟩
  | some n =>
    cases sizeEq : chunkSize (rest.take n) with
    | none => exact ⟨false, fun fuel => by simp only [chunksFrom, line, sizeEq]⟩
    | some size =>
      by_cases zero : size = 0
      · exact ⟨true, fun fuel => by simp only [chunksFrom, line, sizeEq, if_pos zero]⟩
      refine ⟨false, fun fuel => ?_⟩
      have here := findIdx?_lt line
      simp only [chunksFrom, line, sizeEq, if_neg zero]
      split
      · rfl
      rename_i small
      rw [if_pos]
      by_contra both
      rw [not_or, length_drop, drop_drop, ne_eq, Decidable.not_not] at both
      exact chunk ⟨n, size, line, sizeEq, zero, small, by omega, both.2⟩

theorem chunksFrom_fuel : ∀ (fuel : Nat) {rest : List UInt8}, rest.length < fuel →
    chunksFrom fuel rest = chunksOf rest := by
  intro fuel
  induction fuel using Nat.strongRecOn with
  | _ fuel ih =>
    intro rest enough
    obtain ⟨fuel, rfl⟩ : ∃ m, fuel = m + 1 := ⟨fuel - 1, by omega⟩
    rw [chunksOf]
    rcases chunk_or_none rest with ⟨n, size, first⟩ | ⟨last, none⟩
    · have inside := first.inside
      have shorter : (rest.drop (n + 1 + size + 2)).length + 3 ≤ rest.length := by
        have positive := first.positive
        rw [length_drop]
        omega
      rw [chunksFrom_first first, chunksFrom_first first, ih fuel (by omega) (by omega),
        ih rest.length (by omega) (by omega)]
    · rw [none, none]

theorem chunksOf_first (first : First rest n size) :
    chunksOf rest = (((rest.drop (n + 1)).take size, rest.drop (n + 1 + size)) ::
      (chunksOf (rest.drop (n + 1 + size + 2))).1,
      (chunksOf (rest.drop (n + 1 + size + 2))).2) := by
  have inside := first.inside
  rw [chunksOf, chunksFrom_first first, chunksFrom_fuel]
  rw [length_drop]
  omega

/-! ## The decoder copies what is behind the chunks -/

def copyAll : List (List UInt8 × List UInt8) → Nat → List UInt8 →
    Option (List UInt8 × Nat × Bool)
  | [], w, out => some (out, w, false)
  | (data, after) :: chunks, w, out =>
    if out.length < w + data.length then
      (Slice.copy out w (after.take (min (out.length - w) after.length))).map fun out =>
        (out, out.length, true)
    else if data.length ≤ after.length then
      (Slice.copy out w (after.take data.length)).bind fun out =>
        copyAll chunks (w + data.length) out
    else none

theorem decodeFrom_chunks (short : body.length ≤ isizeMax) (fuel : Nat) {i w : Nat}
    {out : List UInt8} (inside : i ≤ body.length) (below : w ≤ i)
    (enough : body.length - i < fuel) :
    decodeFrom body fuel i w out = copyAll (chunksFrom fuel (body.drop i)).1 w out := by
  rw [isizeMax] at short
  induction fuel generalizing i w out with
  | zero => omega
  | succ fuel ih =>
    -- The two loops look at the same things in the same order.
    rw [decodeFrom, chunksFrom, findLf_eq inside]
    cases line : (body.drop i).findIdx? fun b => b = lf with
    | none => rfl
    | some n =>
      have here := findIdx?_lt line
      rw [length_drop] at here
      simp only [map_some, bind_some]
      rw [range_eq (by omega), bind_some]
      cases chunkSize ((body.drop i).take n) with
      | none => rfl
      | some size =>
        dsimp only
        split
        · rfl
        split
        · rfl
        rename_i small
        rw [chunkEnds_eq (by rw [maxChunkBytes, maxResponseBytes] at small; omega)]
        have after : (body.drop i).drop (n + 1) = body.drop (i + n + 1) := by
          rw [drop_drop, Nat.add_assoc]
        simp only [after, drop_drop, length_drop]
        split
        · rename_i missing
          rw [if_pos (.inl (by omega))]
          rfl
        rename_i arrived
        rw [range_eq (by omega), bind_some]
        split
        · rename_i ending
          rw [if_pos (.inr ending)]
          rfl
        rename_i ending
        have fine : ¬ (body.length - (i + n + 1) < size + 2 ∨
            (body.drop (i + n + 1 + size)).take 2 ≠ crlf) := by
          rintro (less | differ)
          · omega
          · exact ending differ
        have data : ((body.drop (i + n + 1)).take size).length = size := by
          rw [length_take, length_drop]
          omega
        rw [if_neg fine, copyAll, data, length_drop, checkedAdd, if_pos (by omega)]
        dsimp only
        split
        · rw [range_eq (by omega), bind_some]
        split
        · rw [range_eq (by omega), bind_some]
          congr 1
          funext out
          exact ih (by omega) (by omega) (by omega)
        · rw [Slice.range, if_neg (by omega)]
          rfl

theorem decodeChunked_eq (short : body.length ≤ isizeMax) (out : List UInt8) :
    decodeChunked body out = copyAll (chunksOf body).1 0 out :=
  decodeFrom_chunks short (body.length + 1) (Nat.zero_le _) (Nat.le_refl 0) (by omega)

variable {chunks : List (List UInt8 × List UInt8)} {w : Nat} {out : List UInt8}

/-- What was written before stays. -/
theorem take_copyAll {r : List UInt8 × Nat × Bool} (inside : w ≤ out.length)
    (run : copyAll chunks w out = some r) : r.1.take w = out.take w := by
  induction chunks generalizing w out with
  | nil =>
    cases run
    rfl
  | cons c chunks ih =>
    obtain ⟨data, after⟩ := c
    rw [copyAll] at run
    split at run
    · obtain ⟨filled, copied, rfl⟩ := map_eq_some_iff.mp run
      exact Slice.take_copy inside copied
    split at run
    · obtain ⟨next, copied, run⟩ := bind_eq_some_iff.mp run
      have length := Slice.length_copy copied
      have kept := congrArg (take w) (ih (by omega) run)
      rw [take_take, take_take, Nat.min_eq_left (Nat.le_add_right _ _)] at kept
      rw [kept]
      exact Slice.take_copy inside copied
    · cases run

/-! ## The chunks of a longer body -/

theorem First.append (first : First rest n size) (c : List UInt8) : First (rest ++ c) n size := by
  have inside := first.inside
  have line : LineAt rest 0 n (rest.take n) := ⟨first.line, rfl⟩
  refine ⟨(line.append c).found, ?_, first.positive, first.small, ?_, ?_⟩
  · rw [take_append_of_le_length (by omega)]
    exact first.sizeEq
  · rw [length_append]
    omega
  · rw [Slice.take_drop_append c (by omega)]
    exact first.ending

theorem chunksOf_last (line : rest.findIdx? (fun b => b = lf) = some n)
    (zero : chunkSize (rest.take n) = some 0) : chunksOf rest = ([], true) := by
  rw [chunksOf, chunksFrom, line]
  dsimp only
  rw [zero]
  rfl

end CactKernel.Http
