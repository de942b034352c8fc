import CactKernel.Memory.FreeChains

/-! # Frames outside the page tables

The frames of memfd objects, shared memory segments and kernel stacks, and the
loops that take a run of frames or give one back. -/

set_option autoImplicit false

namespace CactKernel.Memory

open Lib Mem Function Nat Multiset Steps Micro

variable {sc : Scope} {m : Mem} {shared : DirId → Nat → Prop} {hand : Multiset Nat}

/-! ## Pins -/

def Memfd.frame (o : Memfd) (i : Nat) : Option Nat :=
  if o.valid = true ∧ i < o.numPages then some (o.pages i) else none

def Segment.frame (seg : Segment) (i : Nat) : Option Nat :=
  if seg.valid = true ∧ i < seg.numPages then some (seg.pages i) else none

def pinsOf (objects : Nat → Memfd) (segments : Nat → Segment) (kstacks : Nat → Option Nat) :
    Pin → Option Nat
  | .stack p => kstacks p
  | .object h i => (objects h).frame i
  | .segment s i => (segments s).frame i

/-- The pins after the spots `0 .. n` were filled or emptied. -/
def setPins (pins : Pin → Option Nat) (spot : Nat → Pin) (held : Nat → Option Nat) :
    Nat → Pin → Option Nat
  | 0 => pins
  | n + 1 => update (setPins pins spot held n) (spot n) (held n)

variable {n : Nat}

section Spots

variable {pins : Pin → Option Nat} {spot : Nat → Pin} {held : Nat → Option Nat}
  {frames : Nat → Nat}

theorem setPins_other {x : Pin} (n : Nat) (other : ∀ j < n, x ≠ spot j) :
    setPins pins spot held n x = pins x := by
  induction n with
  | zero => rfl
  | succ n ih =>
    rw [setPins, update_of_ne (other n (lt_succ_self n))]
    exact ih fun j small => other j (lt_succ_of_lt small)

theorem setPins_spot (apart : Injective spot) {j : Nat} (small : j < n) :
    setPins pins spot held n (spot j) = held j := by
  induction n with
  | zero => exact absurd small (not_lt_zero j)
  | succ n ih =>
    rw [setPins]
    by_cases last : j = n
    · rw [last, update_self]
    · rw [update_of_ne (fun same => last (apart same))]
      exact ih (lt_of_le_of_ne (le_of_lt_succ small) last)

theorem setPins_eq {g : Pin → Option Nat} (apart : Injective spot)
    (spots : ∀ j < n, g (spot j) = held j)
    (others : ∀ x, (∀ j < n, x ≠ spot j) → pins x = g x) : setPins pins spot held n = g := by
  funext x
  by_cases other : ∀ j < n, x ≠ spot j
  · rw [setPins_other n other, others x other]
  · push Not at other
    obtain ⟨j, small, rfl⟩ := other
    rw [setPins_spot apart small, spots j small]

def inHand (frames : Nat → Nat) (n : Nat) : Multiset Nat := (Multiset.range n).map frames

theorem inHand_succ (frames : Nat → Nat) (n : Nat) :
    inHand frames (n + 1) = frames n ::ₘ inHand frames n := by
  simp [inHand]

theorem inHand_next {f g : Nat → Nat} (same : ∀ j < n, g j = f j) :
    inHand g (n + 1) + hand = g n ::ₘ (inHand f n + hand) := by
  have before : inHand g n = inHand f n :=
    map_congr rfl fun j small => same j (mem_range.mp small)
  rw [inHand_succ, before, cons_add]

theorem pinAll_steps (apart : Injective spot) (n : Nat)
    (free : ∀ j < n, pins (spot j) = none) :
    Steps sc ⟨m, pins, shared, inHand frames n + hand⟩
      ⟨m, setPins pins spot (fun j => some (frames j)) n, shared, hand⟩ := by
  induction n generalizing hand with
  | zero =>
    simp only [inHand, range_zero, map_zero, zero_add]
    exact refl
  | succ n ih =>
    have earlier : Steps sc ⟨m, pins, shared, inHand frames n + (frames n ::ₘ hand)⟩
        ⟨m, setPins pins spot (fun j => some (frames j)) n, shared, frames n ::ₘ hand⟩ :=
      ih fun j small => free j (lt_succ_of_lt small)
    rw [inHand_succ, cons_add, ← add_cons]
    refine earlier.trans (plain (pin ?_ rfl))
    change setPins pins spot _ n (spot n) = none
    rw [setPins_other n fun j small same => ne_of_gt small (apart same)]
    exact free n (lt_succ_self n)

theorem unpinAll_steps (apart : Injective spot) (n : Nat)
    (pinned : ∀ j < n, pins (spot j) = some (frames j)) :
    Steps sc ⟨m, pins, shared, hand⟩
      ⟨countTo (fun j m => m.freePage (frames j)) n m, setPins pins spot (fun _ => none) n, shared,
        hand⟩ := by
  induction n with
  | zero => exact refl
  | succ n ih =>
    refine (ih fun j small => pinned j (lt_succ_of_lt small)).trans (plain ?_)
    refine unpin (w := ⟨_, setPins pins spot _ n, shared, hand⟩) ?_
    change setPins pins spot _ n (spot n) = some (frames n)
    rw [setPins_other n fun j small same => ne_of_gt small (apart same)]
    exact pinned n (lt_succ_self n)

theorem discardAll_steps (n : Nat) :
    Steps sc ⟨m, pins, shared, inHand frames n + hand⟩
      ⟨countTo (fun j m => m.freePage (frames j)) n m, pins, shared, hand⟩ := by
  induction n generalizing hand with
  | zero =>
    simp only [inHand, range_zero, map_zero, zero_add]
    exact refl
  | succ n ih =>
    have earlier : Steps sc ⟨m, pins, shared, inHand frames n + (frames n ::ₘ hand)⟩
        ⟨countTo (fun j m => m.freePage (frames j)) n m, pins, shared, frames n ::ₘ hand⟩ := ih
    rw [inHand_succ, cons_add, ← add_cons]
    exact earlier.trans (plain (discard rfl))

end Spots

/-! ## Taking a run of frames -/

variable {m' : Mem} {pages : Nat → Nat} {g : Growth}

section Runs

variable {pins : Pin → Option Nat}

theorem kalloc_steps {f : Nat} (run : m.kalloc = (some f, m')) :
    Steps sc ⟨m, pins, shared, hand⟩ ⟨m', pins, shared, f ::ₘ hand⟩ :=
  plain (alloc (w := ⟨m, pins, shared, hand⟩) run)

theorem starve_steps (run : m.kalloc = (none, m')) :
    Steps sc ⟨m, pins, shared, hand⟩ ⟨m', pins, shared, hand⟩ :=
  plain (starve (w := ⟨m, pins, shared, hand⟩) run)

/-- The growth loop has its first `i` frames in hand. -/
structure Growing (sc : Scope) (pins : Pin → Option Nat) (shared : DirId → Nat → Prop) (m : Mem)
    (pages : Nat → Nat) (start i : Nat) (g : Growth) : Prop where
  taken : g.taken = i
  before : ∀ k < start, g.pages k = pages k
  steps : Steps sc ⟨m, pins, shared, 0⟩
    ⟨g.mem, pins, shared, inHand (fun j => g.pages (start + j)) i + 0⟩

theorem Growing.start (pages : Nat → Nat) (start : Nat) :
    Growing sc pins shared m pages start 0 ⟨m, pages, 0⟩ :=
  ⟨rfl, fun _ _ => rfl, refl⟩

theorem Growing.next {start i : Nat}
    (growing : Growing sc pins shared m pages start i g) :
    if (growPage start i g).1 then
      Growing sc pins shared m pages start (i + 1) (growPage start i g).2
    else Growing sc pins shared m pages start i (growPage start i g).2 := by
  unfold growPage
  cases run : g.mem.kalloc with
  | mk r m' =>
    cases r with
    | none => exact ⟨growing.taken, growing.before, growing.steps.trans (starve_steps run)⟩
    | some f =>
      rw [if_pos rfl]
      refine ⟨by rw [growing.taken], ?_, ?_⟩
      · intro k early
        have different : k ≠ start + i := by omega
        dsimp only
        rw [update_of_ne different]
        exact growing.before k early
      · dsimp only
        rw [inHand_next (f := fun j => g.pages (start + j)) fun j small => update_of_ne
          (by omega) _ _, update_self]
        have taken := growing.steps.trans (kalloc_steps run)
        exact taken.trans (plain (fill f fun _ => 0))

theorem growing_loop (sc : Scope) (pins : Pin → Option Nat) (shared : DirId → Nat → Prop) (m : Mem)
    (pages : Nat → Nat) (start n : Nat) :
    if (countWhile (growPage start) n ⟨m, pages, 0⟩).1 then
      Growing sc pins shared m pages start n (countWhile (growPage start) n ⟨m, pages, 0⟩).2
    else ∃ i < n,
      Growing sc pins shared m pages start i (countWhile (growPage start) n ⟨m, pages, 0⟩).2 :=
  countWhile_invariant (Growing sc pins shared m pages start) (Growing sc pins shared m pages start)
    (Growing.start pages start) fun _ _ _ growing => growing.next

theorem Growing.undo {start i : Nat}
    (growing : Growing sc pins shared m pages start i g) :
    Steps sc ⟨m, pins, shared, 0⟩
      ⟨countTo (fun j m => m.freePage (g.pages (start + j))) g.taken g.mem, pins, shared, 0⟩ := by
  rw [growing.taken]
  exact growing.steps.trans (discardAll_steps i)

structure Stacking (sc : Scope) (pins : Pin → Option Nat) (shared : DirId → Nat → Prop)
    (hand : Multiset Nat) (m : Mem) (i : Nat) (x : Stacks) : Prop where
  steps : Steps sc ⟨m, pins, shared, hand⟩ ⟨x.mem, pins, shared, inHand x.frames i + hand⟩

theorem Stacking.next {i : Nat} {x : Stacks} (stacking : Stacking sc pins shared hand m i x) :
    if (allocStack i x).1 then Stacking sc pins shared hand m (i + 1) (allocStack i x).2
    else Stacking sc pins shared hand m i (allocStack i x).2 := by
  unfold allocStack
  cases run : x.mem.kalloc with
  | mk r m' =>
    cases r with
    | none => exact ⟨stacking.steps.trans (starve_steps run)⟩
    | some f =>
      rw [if_pos rfl]
      refine ⟨?_⟩
      dsimp only
      rw [inHand_next fun j small => update_of_ne (Nat.ne_of_lt small) _ _, update_self]
      exact stacking.steps.trans (kalloc_steps run)

theorem allocStacks_steps {x : Stacks} (run : m.allocStacks = (true, x)) :
    Steps sc ⟨m, pins, shared, hand⟩
      ⟨x.mem, pins, shared, inHand x.frames userStackPages + hand⟩ := by
  have start : Stacking sc pins shared hand m 0 ⟨m, fun _ => 0⟩ := by
    refine ⟨?_⟩
    simp only [inHand, range_zero, map_zero, zero_add]
    exact refl
  have whole := countWhile_invariant (Stacking sc pins shared hand m)
    (Stacking sc pins shared hand m) (n := userStackPages) start fun _ _ _ stacking => stacking.next
  unfold allocStacks at run
  rw [run] at whole
  exact whole.steps

end Runs

/-! ## memfd objects -/

section Objects

variable {objects : Nat → Memfd} {segments : Nat → Segment} {kstacks : Nat → Option Nat} {h : Nat}

theorem pinsOf_congr {objects' : Nat → Memfd}
    (same : ∀ h i, (objects' h).frame i = (objects h).frame i) :
    pinsOf objects' segments kstacks = pinsOf objects segments kstacks := by
  funext x
  cases x with
  | stack p | segment s i => rfl
  | object h i => exact same h i

variable {o : Memfd}

theorem pinsOf_update_congr {o' : Memfd} (same : ∀ i, o.frame i = o'.frame i) :
    pinsOf (update objects h o) segments kstacks =
      pinsOf (update objects h o') segments kstacks := by
  refine pinsOf_congr fun h' i => ?_
  rw [update_apply, update_apply]
  split
  · exact same i
  · rfl

theorem pinsOf_update (same : ∀ i, o.frame i = (objects h).frame i) :
    pinsOf (update objects h o) segments kstacks = pinsOf objects segments kstacks := by
  rw [pinsOf_update_congr same, update_eq_self]

theorem object_apart (h first : Nat) : Injective fun j => Pin.object h (first + j) :=
  fun _ _ same => add_left_cancel (Pin.object.inj same).2

theorem setPins_object {held : Nat → Option Nat} (first : Nat)
    (spots : ∀ j < n, o.frame (first + j) = held j)
    (others : ∀ i, (∀ j < n, i ≠ first + j) → (objects h).frame i = o.frame i) :
    setPins (pinsOf objects segments kstacks) (fun j => .object h (first + j)) held n =
      pinsOf (update objects h o) segments kstacks := by
  refine setPins_eq (object_apart h first) ?_ fun x other => ?_
  · simpa only [pinsOf, update_self] using spots
  cases x with
  | stack p | segment s i => rfl
  | object h' i =>
    by_cases here : h' = h
    · subst here
      simp only [pinsOf, update_self]
      exact others i fun j small same => other j small (by rw [same])
    · simp only [pinsOf, update_of_ne here]

theorem growLocked_steps {need : Nat} {done : Bool}
    (valid : (objects h).valid = true)
    (run : growLocked m (objects h) need = (done, m', o)) :
    Steps sc ⟨m, pinsOf objects segments kstacks, shared, 0⟩
      ⟨m', pinsOf (update objects h o) segments kstacks, shared, 0⟩ := by
  unfold growLocked at run
  split at run
  · cases run
    rw [update_eq_self]
    exact refl
  rename_i more
  split at run
  · cases run
    rw [update_eq_self]
    exact refl
  have whole := growing_loop sc (pinsOf objects segments kstacks) shared m (objects h).pages
    (objects h).numPages (need - (objects h).numPages)
  split at run
  · rename_i g full
    rw [full] at whole
    cases run
    have pinned := whole.steps.trans (pinAll_steps (object_apart h (objects h).numPages) _
      fun j _ => by simp [pinsOf, Memfd.frame])
    rw [setPins_object
      (o := { objects h with numPages := need, pages := g.pages }) _ ?_ ?_] at pinned
    · exact pinned
    · intro j small
      simp only [Memfd.frame, valid, true_and]
      rw [if_pos (by omega)]
    · intro i other
      simp only [Memfd.frame, valid, true_and]
      by_cases early : i < (objects h).numPages
      · rw [if_pos early, if_pos (by omega), whole.before i early]
      · rw [if_neg early, if_neg fun late => other (i - (objects h).numPages) (by omega) (by omega)]
  · rename_i g broken
    rw [broken] at whole
    obtain ⟨i, -, growing⟩ := whole
    cases run
    rw [update_eq_self]
    exact growing.undo

theorem growLocked_failed {o' : Memfd} {need : Nat}
    (run : growLocked m o need = (false, m', o')) : o' = o := by
  unfold growLocked at run
  split at run
  · cases run
  split at run
  · cases run
    rfl
  split at run
  · cases run
  · cases run
    rfl

theorem maybeFreeLocked_steps (sameFrames : ∀ i, o.frame i = (objects h).frame i) :
    Steps sc ⟨m, pinsOf objects segments kstacks, shared, 0⟩
      ⟨(maybeFreeLocked m o).1, pinsOf (update objects h (maybeFreeLocked m o).2) segments
        kstacks, shared, 0⟩ := by
  unfold maybeFreeLocked
  split
  · rw [pinsOf_update sameFrames]
    exact refl
  rename_i last
  have valid : o.valid = true := by
    by_contra invalid
    exact last (by simp [invalid])
  have pinned : ∀ j < o.numPages, pinsOf objects segments kstacks (.object h (0 + j)) =
      some (o.pages j) := by
    intro j small
    rw [zero_add, pinsOf, ← sameFrames j]
    simp [Memfd.frame, valid, small]
  have freed : Steps sc ⟨m, _, shared, 0⟩ _ := unpinAll_steps (object_apart h 0) o.numPages pinned
  have result : setPins (pinsOf objects segments kstacks) (fun j => Pin.object h (0 + j))
      (fun _ => none) o.numPages = pinsOf (update objects h
        { o with numPages := 0, size := 0, valid := false }) segments kstacks := by
    refine setPins_object 0 (by simp [Memfd.frame]) fun i other => ?_
    have late : ¬ i < o.numPages := fun small => other i small (zero_add i).symm
    rw [← sameFrames i]
    simp [Memfd.frame, late]
  rw [result] at freed
  exact freed

end Objects

/-! ## Objects as a process sees them -/

/-- The world of a process that is in a mapping call. -/
def Vm.world (x : Vm) (segments : Nat → Segment) (kstacks : Nat → Option Nat)
    (shared : DirId → Nat → Prop) : World :=
  ⟨x.mem, pinsOf x.objects segments kstacks, shared, 0⟩

section Handles

variable {x : Vm} {segments : Nat → Segment} {kstacks : Nat → Option Nat} {h : Nat}

theorem handleValid_valid (valid : x.handleValid h = true) : (x.objects h).valid = true := by
  unfold Vm.handleValid at valid
  exact (Bool.and_eq_true_iff.mp valid).2

theorem memfdMapInc_world : (x.memfdMapInc h).2.world segments kstacks shared =
    x.world segments kstacks shared := by
  unfold Vm.memfdMapInc
  split
  · rfl
  simp only [Vm.world]
  rw [pinsOf_update]
  intro i
  rfl

theorem memfdMapDec_steps : Steps sc (x.world segments kstacks shared)
    ((x.memfdMapDec h).world segments kstacks shared) := by
  unfold Vm.memfdMapDec
  split
  · exact refl
  · exact maybeFreeLocked_steps fun i => rfl

theorem memfdGrowTo_steps {needed : Nat} : Steps sc (x.world segments kstacks shared)
    ((x.memfdGrowTo h needed).2.world segments kstacks shared) := by
  unfold Vm.memfdGrowTo
  split
  · exact refl
  rename_i handle
  have valid := handleValid_valid (x := x) (h := h) (by simpa using handle)
  split
  · rename_i m o run
    have grown : Steps sc (x.world segments kstacks shared) _ := growLocked_steps valid run
    have same : pinsOf (update x.objects h { o with size := max o.size needed }) segments
        kstacks = pinsOf (update x.objects h o) segments kstacks :=
      pinsOf_update_congr fun i => rfl
    rw [← same] at grown
    exact grown
  · rename_i m o run
    have grown : Steps sc (x.world segments kstacks shared) _ := growLocked_steps valid run
    rw [growLocked_failed run, update_eq_self] at grown
    exact grown

end Handles

/-! ## Shared memory segments -/

section Segments

variable {objects : Nat → Memfd} {segments : Nat → Segment} {kstacks : Nat → Option Nat} {s : Nat}

theorem segment_apart (s : Nat) : Injective (Pin.segment s) := fun _ _ same =>
  (Pin.segment.inj same).2

theorem setPins_segment {held : Nat → Option Nat} (seg : Segment)
    (spots : ∀ j < n, seg.frame j = held j)
    (others : ∀ i, ¬ i < n → (segments s).frame i = seg.frame i) :
    setPins (pinsOf objects segments kstacks) (Pin.segment s) held n =
      pinsOf objects (update segments s seg) kstacks := by
  refine setPins_eq (segment_apart s) ?_ fun x other => ?_
  · simpa only [pinsOf, update_self] using spots
  cases x with
  | stack p | object h i => rfl
  | segment s' i =>
    by_cases here : s' = s
    · subst here
      simp only [pinsOf, update_self]
      exact others i fun small => other i small rfl
    · simp only [pinsOf, update_of_ne here]

theorem pinsOf_segment {seg : Segment} (same : ∀ i, seg.frame i = (segments s).frame i) :
    pinsOf objects (update segments s seg) kstacks = pinsOf objects segments kstacks := by
  funext x
  cases x with
  | stack p | object h i => rfl
  | segment s' i =>
    simp only [pinsOf, update_apply]
    split
    · rename_i here
      rw [here]
      exact same i
    · rfl

theorem segFree_steps (valid : (segments s).valid = true) (seg : Segment)
    (gone : seg.valid = false) :
    Steps sc ⟨m, pinsOf objects segments kstacks, shared, 0⟩
      ⟨countTo (fun j m => m.freePage ((segments s).pages j)) (segments s).numPages m,
        pinsOf objects (update segments s seg) kstacks, shared, 0⟩ := by
  have pinned : ∀ j < (segments s).numPages, pinsOf objects segments kstacks (.segment s j) =
      some ((segments s).pages j) := by
    intro j small
    simp [pinsOf, Segment.frame, valid, small]
  have freed : Steps sc ⟨m, _, shared, 0⟩ _ :=
    unpinAll_steps (segment_apart s) (segments s).numPages pinned
  rw [setPins_segment seg (fun j _ => by simp [Segment.frame, gone]) fun i late => by
    simp [Segment.frame, gone, late]] at freed
  exact freed

theorem segNew_steps (invalid : (segments s).valid = false)
    (growing : Growing sc (pinsOf objects segments kstacks) shared m pages 0 n g) (seg : Segment)
    (valid : seg.valid = true) (numPages : seg.numPages = n) (frames : seg.pages = g.pages) :
    Steps sc ⟨m, pinsOf objects segments kstacks, shared, 0⟩
      ⟨g.mem, pinsOf objects (update segments s seg) kstacks, shared, 0⟩ := by
  have free : ∀ j < n, pinsOf objects segments kstacks (.segment s j) = none := by
    intro j _
    simp [pinsOf, Segment.frame, invalid]
  have pinned := growing.steps.trans (pinAll_steps (segment_apart s) n free)
  rw [setPins_segment seg (fun j small => by
    simp [Segment.frame, valid, numPages, frames, small]) fun i late => by
    simp [Segment.frame, invalid, numPages, late]] at pinned
  exact pinned

end Segments

end CactKernel.Memory
