import CactKernel.Lib.Resume
import CactKernel.Http.Response

/-! # The framing of a response

What the reading loop looks for, as a scanner over the bytes that have arrived: the end of
the headers, and then the end of the body. The loop is this scanner resumed after every
pull, so that the cuts of the stream do not matter. -/

set_option autoImplicit false

namespace CactKernel.Http

open Lib List Option Nat Bool

/-! ## The end of the headers -/

theorem findHeaderEnd_le {b : List UInt8} {i : Nat} (found : findHeaderEnd b = some i) :
    i + 4 ≤ b.length := by
  induction b generalizing i with
  | nil => cases found
  | cons x rest ih =>
    rw [findHeaderEnd] at found
    split at found
    · rename_i here
      cases found
      exact ( isPrefixOf_iff_prefix.mp here).length_le
    · obtain ⟨j, later, rfl⟩ := map_eq_some_iff.mp found
      have inside := ih later
      rw [length_cons]
      omega

theorem prefix_append_iff {b : List UInt8} (c : List UInt8) (long : 4 ≤ b.length) :
    headerEnd.isPrefixOf (b ++ c) = headerEnd.isPrefixOf b := by
  rw [Bool.eq_iff_iff, isPrefixOf_iff_prefix, isPrefixOf_iff_prefix]
  constructor
  · intro whole
    exact prefix_of_prefix_length_le whole (prefix_append b c) long
  · intro here
    exact here.trans (prefix_append b c)

theorem findHeaderEnd_append (c : List UInt8) : ∀ {b : List UInt8} {i : Nat},
    findHeaderEnd b = some i ↔ findHeaderEnd (b ++ c) = some i ∧ i + 4 ≤ b.length := by
  intro b
  induction b with
  | nil => simp [findHeaderEnd]
  | cons x rest ih =>
    intro i
    by_cases long : 4 ≤ (x :: rest).length
    · have same := prefix_append_iff c long
      rw [cons_append] at same ⊢
      rw [findHeaderEnd, findHeaderEnd, same]
      split
      · exact ⟨fun found => ⟨found, some.inj found ▸ by omega⟩, And.left⟩
      · simp only [map_eq_some_iff, ih, length_cons]
        constructor
        · rintro ⟨j, ⟨later, inside⟩, rfl⟩
          exact ⟨⟨j, later, rfl⟩, by omega⟩
        · rintro ⟨⟨j, later, rfl⟩, inside⟩
          exact ⟨j, ⟨later, by omega⟩, rfl⟩
    · exact ⟨fun found => absurd (findHeaderEnd_le found) (by omega), fun found => by omega⟩

/-- Only the end of what was there before can be completed. -/
theorem findHeaderEnd_drop (d : List UInt8) (k : Nat) {a : List UInt8}
    (none : findHeaderEnd a = none) (inside : k = 0 ∨ k + 3 ≤ a.length) :
    findHeaderEnd (a ++ d) = (findHeaderEnd ((a ++ d).drop k)).map (k + ·) := by
  induction k generalizing a with
  | zero =>
    rw [drop_zero]
    simp
  | succ k ih =>
    have long : k + 4 ≤ a.length := by omega
    cases a with
    | nil =>
      rw [length_nil] at long
      omega
    | cons x rest =>
      rw [length_cons] at long
      have same := prefix_append_iff (b := x :: rest) d (by rw [length_cons]; omega)
      rw [findHeaderEnd] at none
      split at none
      · cases none
      rename_i not_here
      have later := ih (map_eq_none_iff.mp none) (by omega)
      rw [cons_append] at same ⊢
      rw [findHeaderEnd, same, if_neg not_here, List.drop_succ_cons, later, Option.map_map]
      congr 1
      funext n
      exact Nat.add_right_comm k n 1

/-! ## The end of a chunked body -/

/-- One round of `chunked_scan`; the result is the end of the body, or none for an error. -/
def chunkStep (body : List UInt8) (sc : ChunkScanner) : Outcome ChunkScanner (Option Nat) :=
  match (body.drop sc.off).findIdx? fun b => b = lf with
  | none => .wait
  | some n =>
    let line := (body.drop sc.off).take n
    if sc.trailers then
      if line = [] ∨ line = [cr] then .stop (some (sc.off + n + 1))
      else .next { sc with off := sc.off + n + 1 }
    else
      match chunkSize line with
      | none => .stop none
      | some size =>
        if maxChunkBytes < size then .stop none
        else if size = 0 then .next ⟨sc.off + n + 1, true⟩
        else
          match chunkEnds (sc.off + n + 1) size with
          | none => .stop none
          | some (chunkEnd, dataEnd) =>
            if body.length < dataEnd then .wait
            else if (body.drop chunkEnd).take 2 ≠ crlf then .stop none
            else .next ⟨dataEnd, false⟩

variable {size : Nat}

theorem chunkEnds_some {start chunkEnd dataEnd : Nat}
    (ends : chunkEnds start size = some (chunkEnd, dataEnd)) :
    chunkEnd = start + size ∧ dataEnd = chunkEnd + 2 := by
  rw [chunkEnds, checkedAdd] at ends
  split at ends
  · simp only [bind_eq_bind, bind_some, checkedAdd] at ends
    split at ends
    · cases ends
      exact ⟨rfl, rfl⟩
    · cases ends
  · cases ends

theorem chunkEnds_eq {dataStart : Nat} (small : dataStart + size + 2 < 2 ^ 32) :
    chunkEnds dataStart size = some (dataStart + size, dataStart + size + 2) := by
  rw [chunkEnds, checkedAdd, if_pos (by omega)]
  simp only [bind_eq_bind, bind_some]
  rw [checkedAdd, if_pos small]
  rfl

theorem findIdx?_lt {p : UInt8 → Bool} : ∀ {b : List UInt8} {n : Nat}, b.findIdx? p = some n →
    n < b.length := by
  intro b n found
  exact (findIdx?_eq_some_iff_getElem.mp found).1

/-- A line of the body from `off` on. -/
structure LineAt (body : List UInt8) (off n : Nat) (text : List UInt8) : Prop where
  found : (body.drop off).findIdx? (fun b => b = lf) = some n
  textEq : (body.drop off).take n = text

section LineAt

variable {b c text : List UInt8} {off n : Nat}

theorem LineAt.inside (line : LineAt b off n text) : off + n < b.length := by
  have here := findIdx?_lt line.found
  rw [length_drop] at here
  omega

theorem LineAt.append (line : LineAt b off n text) (c : List UInt8) :
    LineAt (b ++ c) off n text := by
  have inside := line.inside
  constructor
  · rw [drop_append_of_le_length (by omega), findIdx?_append, line.found]
    rfl
  · rw [Slice.take_drop_append c (by omega), line.textEq]

end LineAt

/-- The size line of a chunk with data. -/
structure SizedAt (body : List UInt8) (sc : ChunkScanner) (n size : Nat) (text : List UInt8) :
    Prop where
  line : LineAt body sc.off n text
  plain : sc.trailers = false
  sizeEq : chunkSize text = some size
  small : ¬ maxChunkBytes < size
  positive : size ≠ 0
  ends : chunkEnds (sc.off + n + 1) size =
    some (sc.off + n + 1 + size, sc.off + n + 1 + size + 2)

/-- What a round can find. -/
inductive ChunkRound (body : List UInt8) (sc : ChunkScanner) :
    Outcome ChunkScanner (Option Nat) → Prop
  | noLine (missing : (body.drop sc.off).findIdx? (fun b => b = lf) = none) :
      ChunkRound body sc .wait
  | last {n : Nat} {text : List UInt8} (line : LineAt body sc.off n text)
      (trailers : sc.trailers = true) (empty : text = [] ∨ text = [cr]) :
      ChunkRound body sc (.stop (some (sc.off + n + 1)))
  | trailer {n : Nat} {text : List UInt8} (line : LineAt body sc.off n text)
      (trailers : sc.trailers = true) (field : ¬ (text = [] ∨ text = [cr])) :
      ChunkRound body sc (.next { sc with off := sc.off + n + 1 })
  | noSize {n : Nat} {text : List UInt8} (line : LineAt body sc.off n text)
      (plain : sc.trailers = false) (refused : chunkSize text = none) :
      ChunkRound body sc (.stop none)
  | large {n size : Nat} {text : List UInt8} (line : LineAt body sc.off n text)
      (plain : sc.trailers = false) (sizeEq : chunkSize text = some size)
      (refused : maxChunkBytes < size ∨ size ≠ 0 ∧ chunkEnds (sc.off + n + 1) size = none) :
      ChunkRound body sc (.stop none)
  | zero {n : Nat} {text : List UInt8} (line : LineAt body sc.off n text)
      (plain : sc.trailers = false) (sizeEq : chunkSize text = some 0) :
      ChunkRound body sc (.next ⟨sc.off + n + 1, true⟩)
  | short {n size : Nat} {text : List UInt8} (sized : SizedAt body sc n size text)
      (missing : body.length < sc.off + n + 1 + size + 2) : ChunkRound body sc .wait
  | badEnding {n size : Nat} {text : List UInt8} (sized : SizedAt body sc n size text)
      (arrived : sc.off + n + 1 + size + 2 ≤ body.length)
      (ending : (body.drop (sc.off + n + 1 + size)).take 2 ≠ crlf) :
      ChunkRound body sc (.stop none)
  | chunk {n size : Nat} {text : List UInt8} (sized : SizedAt body sc n size text)
      (arrived : sc.off + n + 1 + size + 2 ≤ body.length)
      (ending : (body.drop (sc.off + n + 1 + size)).take 2 = crlf) :
      ChunkRound body sc (.next ⟨sc.off + n + 1 + size + 2, false⟩)

theorem chunkStep_round (body : List UInt8) (sc : ChunkScanner) :
    ChunkRound body sc (chunkStep body sc) := by
  rw [chunkStep]
  cases found : (body.drop sc.off).findIdx? fun b => b = lf with
  | none => exact .noLine found
  | some n =>
    have line : LineAt body sc.off n ((body.drop sc.off).take n) := ⟨found, rfl⟩
    dsimp only
    by_cases trailers : sc.trailers = true
    · rw [if_pos trailers]
      split
      · rename_i empty
        exact .last line trailers empty
      · rename_i field
        exact .trailer line trailers field
    have plain : sc.trailers = false := eq_false_iff.mpr trailers
    rw [if_neg trailers]
    split
    · rename_i refused
      exact .noSize line plain refused
    rename_i size sizeEq
    split
    · rename_i large
      exact .large line plain sizeEq (.inl large)
    rename_i small
    split
    · rename_i zero
      subst zero
      exact .zero line plain sizeEq
    rename_i positive
    split
    · rename_i ends
      exact .large line plain sizeEq (.inr ⟨positive, ends⟩)
    rename_i chunkEnd dataEnd ends
    obtain ⟨rfl, rfl⟩ := chunkEnds_some ends
    have sized : SizedAt body sc n size _ := ⟨line, plain, sizeEq, small, positive, ends⟩
    split
    · rename_i missing
      exact .short sized missing
    rename_i arrived
    split
    · rename_i ending
      exact .badEnding sized (Nat.not_lt.mp arrived) ending
    · rename_i ending
      exact .chunk sized (Nat.not_lt.mp arrived) (Decidable.not_not.mp ending)

variable {n off : Nat} {sc : ChunkScanner}

variable {body : List UInt8}

theorem SizedAt.step {text : List UInt8} (sized : SizedAt body sc n size text) :
    chunkStep body sc =
      if body.length < sc.off + n + 1 + size + 2 then .wait
      else if (body.drop (sc.off + n + 1 + size)).take 2 ≠ crlf then .stop none
      else .next ⟨sc.off + n + 1 + size + 2, false⟩ := by
  rw [chunkStep, sized.line.found]
  dsimp only
  rw [sized.plain, sized.line.textEq, sized.sizeEq]
  dsimp only
  rw [if_neg Bool.false_ne_true, if_neg sized.small, if_neg sized.positive, sized.ends]

theorem ChunkRound.step {o : Outcome ChunkScanner (Option Nat)}
    (round : ChunkRound body sc o) : chunkStep body sc = o := by
  cases round with
  | noLine missing => rw [chunkStep, missing]
  | last line trailers empty =>
    rw [chunkStep, line.found]
    dsimp only
    rw [if_pos trailers, line.textEq, if_pos empty]
  | trailer line trailers field =>
    rw [chunkStep, line.found]
    dsimp only
    rw [if_pos trailers, line.textEq, if_neg field]
  | noSize line plain refused =>
    rw [chunkStep, line.found]
    dsimp only
    rw [plain, line.textEq, refused, if_neg Bool.false_ne_true]
  | large line plain sizeEq refused =>
    rw [chunkStep, line.found]
    dsimp only
    rw [plain, line.textEq, sizeEq, if_neg Bool.false_ne_true]
    dsimp only
    split
    · rfl
    rename_i small
    obtain ⟨positive, ends⟩ := refused.resolve_left small
    rw [if_neg positive, ends]
  | zero line plain sizeEq =>
    rw [chunkStep, line.found]
    dsimp only
    rw [plain, line.textEq, sizeEq, if_neg Bool.false_ne_true]
    rfl
  | short sized missing => rw [sized.step, if_pos missing]
  | badEnding sized arrived ending =>
    rw [sized.step, if_neg (Nat.not_lt.mpr arrived), if_pos ending]
  | chunk sized arrived ending =>
    rw [sized.step, if_neg (Nat.not_lt.mpr arrived), if_neg (Decidable.not_not.mpr ending)]

theorem SizedAt.append {text : List UInt8} (sized : SizedAt body sc n size text)
    (c : List UInt8) : SizedAt (body ++ c) sc n size text :=
  { sized with line := sized.line.append c }

theorem chunkStep_stable {b : List UInt8} (goes : chunkStep b sc ≠ .wait) (c : List UInt8) :
    chunkStep (b ++ c) sc = chunkStep b sc := by
  have more : b.length ≤ (b ++ c).length := by
    rw [length_append]
    omega
  have round := chunkStep_round b sc
  generalize chunkStep b sc = o at goes round ⊢
  apply ChunkRound.step
  cases round with
  | noLine _ | short _ _ => exact absurd rfl goes
  | last line trailers empty => exact .last (line.append c) trailers empty
  | trailer line trailers field => exact .trailer (line.append c) trailers field
  | noSize line plain refused => exact .noSize (line.append c) plain refused
  | large line plain sizeEq refused => exact .large (line.append c) plain sizeEq refused
  | zero line plain sizeEq => exact .zero (line.append c) plain sizeEq
  | badEnding sized arrived ending =>
    apply ChunkRound.badEnding (sized.append c) (Nat.le_trans arrived more)
    rw [Slice.take_drop_append c arrived]
    exact ending
  | chunk sized arrived ending =>
    apply ChunkRound.chunk (sized.append c) (Nat.le_trans arrived more)
    rw [Slice.take_drop_append c arrived]
    exact ending

theorem chunkStep_next {sc' : ChunkScanner}
    (goes : chunkStep body sc = .next sc') : sc.off < sc'.off ∧ sc'.off ≤ body.length := by
  have round := chunkStep_round body sc
  rw [goes] at round
  cases round with
  | trailer line _ _ | zero line _ _ =>
    have inside := line.inside
    dsimp only
    omega
  | chunk _ arrived _ =>
    dsimp only
    omega

theorem chunkStep_stop {e : Nat} (stops : chunkStep body sc = .stop (some e)) :
    sc.off < e ∧ e ≤ body.length := by
  have round := chunkStep_round body sc
  rw [stops] at round
  cases round with
  | last line _ _ =>
    have inside := line.inside
    omega

def chunkResume : Resume UInt8 ChunkScanner (Option Nat) := ⟨chunkStep, chunkStep_stable⟩

/-- What the scanner reports is what the rounds settle on. -/
inductive Scanned (body : List UInt8) (sc : ChunkScanner) : ChunkStatus × ChunkScanner → Prop
  | complete {e : Nat} {last : ChunkScanner}
      (settles : chunkResume.Settles body sc (.inr (some e))) : Scanned body sc (.complete, last)
  | error {last : ChunkScanner} (settles : chunkResume.Settles body sc (.inr none)) :
      Scanned body sc (.error, last)
  | incomplete {last : ChunkScanner} (settles : chunkResume.Settles body sc (.inl last))
      (inside : last.off ≤ body.length) : Scanned body sc (.incomplete, last)

theorem Scanned.next {sc' : ChunkScanner} {r : ChunkStatus × ChunkScanner}
    (goes : chunkStep body sc = .next sc') (later : Scanned body sc' r) : Scanned body sc r := by
  cases later with
  | complete settles => exact .complete (.next goes settles)
  | error settles => exact .error (.next goes settles)
  | incomplete settles inside => exact .incomplete (.next goes settles) inside

theorem findLf_eq (inside : off ≤ body.length) :
    findLf body off = some (((body.drop off).findIdx? fun b => b = lf).map fun n => off + n) := by
  rw [findLf, Slice.position, if_pos inside]

theorem range_eq (inside : off + n ≤ body.length) :
    Slice.range body off (off + n) = some ((body.drop off).take n) := by
  rw [Slice.range, if_pos ⟨by omega, inside⟩, drop_take, Nat.add_sub_cancel_left]

theorem emptyLine_iff (inside : off + n < body.length)
    (found : (body.drop off).findIdx? (fun b => b = lf) = some n) :
    (off + n = off ∨ off + n = off + 1 ∧ body[off]? = some cr) ↔
      ((body.drop off).take n = [] ∨ (body.drop off).take n = [cr]) := by
  have length : ((body.drop off).take n).length = n := by
    rw [length_take, length_drop]
    omega
  constructor
  · rintro (zero | ⟨one, first⟩)
    · left
      have none : n = 0 := by omega
      rw [none, take_zero]
    · right
      have single : n = 1 := by omega
      subst single
      rw [← head?_drop] at first
      obtain ⟨rest, split⟩ := head?_eq_some_iff.mp first
      rw [split]
      rfl
  · rintro (empty | single)
    · left
      rw [empty, length_nil] at length
      omega
    · right
      rw [single, length_singleton] at length
      subst length
      refine ⟨rfl, ?_⟩
      rw [← head?_drop]
      cases rest : body.drop off with
      | nil => rw [rest] at single; cases single
      | cons x xs =>
        rw [rest] at single
        cases single
        rfl

/-- The scanner goes by the rounds. -/
theorem scanFrom_succ (fuel : Nat) (inside : sc.off ≤ body.length) :
    scanFrom body (fuel + 1) sc =
      match chunkStep body sc with
      | .wait => some (.incomplete, sc)
      | .stop none => some (.error, sc)
      | .stop (some _) => some (.complete, sc)
      | .next sc' => scanFrom body fuel sc' := by
  rw [scanFrom, chunkStep, findLf_eq inside]
  cases found : (body.drop sc.off).findIdx? fun b => b = lf with
  | none => cases sc.trailers <;> rfl
  | some n =>
    have here := findIdx?_lt found
    rw [length_drop] at here
    simp only [map_some, bind_some, emptyLine_iff (by omega) found]
    split
    · split <;> rfl
    rename_i plain
    rw [range_eq (by omega), bind_some]
    cases chunkSize ((body.drop sc.off).take n) with
    | none => rfl
    | some size =>
      dsimp only
      split
      · rfl
      split
      · rfl
      cases ends : chunkEnds (sc.off + n + 1) size with
      | none => rfl
      | some e =>
        obtain ⟨chunkEnd, dataEnd⟩ := e
        obtain ⟨-, last⟩ := chunkEnds_some ends
        dsimp only
        split
        · rfl
        rw [range_eq (by omega), bind_some, eq_false_iff.mpr plain]
        split <;> rfl

theorem scanFrom_spec (body : List UInt8) (fuel : Nat) {sc : ChunkScanner}
    (inside : sc.off ≤ body.length) (enough : body.length - sc.off < fuel) :
    ∃ r, scanFrom body fuel sc = some r ∧ Scanned body sc r := by
  induction fuel generalizing sc with
  | zero => omega
  | succ fuel ih =>
    rw [scanFrom_succ fuel inside]
    cases step : chunkStep body sc with
    | wait => exact ⟨_, rfl, .incomplete (.wait step) inside⟩
    | stop r =>
      cases r with
      | none => exact ⟨_, rfl, .error (.stop step)⟩
      | some e => exact ⟨_, rfl, .complete (.stop step)⟩
    | next sc' =>
      obtain ⟨moved, inside'⟩ := chunkStep_next step
      obtain ⟨r, run, scanned⟩ := ih inside' (by omega)
      exact ⟨r, run, scanned.next step⟩

theorem chunkedScan_spec (inside : sc.off ≤ body.length) :
    ∃ r, chunkedScan body sc = some r ∧ Scanned body sc r :=
  scanFrom_spec body (body.length + 1) inside (by omega)

end CactKernel.Http
