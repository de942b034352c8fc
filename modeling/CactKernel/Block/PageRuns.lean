import CactKernel.Block.PageSteps

/-! # Runs of the page cache

Every step of every task keeps the index and the pins, so in every state that any
number of tasks can reach the chains, the LRU list and the valid pages agree. -/

set_option autoImplicit false

namespace CactKernel.PageCache

open Lib List Option Reach

namespace World

variable {w : World} {i : Nat} {held : List (Key × Nat)} {pc : Pc}

/-! ## Every step -/

variable {maxLba : UInt32 → Option Nat}

variable {w' : World} {op : Op}

theorem of_spec {r : Option World} (spec : ∃ w₁, r = some w₁ ∧ w₁.Law) (run : r = some w') :
    w'.Law := by
  obtain ⟨w₁, result, after⟩ := spec
  rw [result] at run
  exact some.inj run ▸ after

theorem go_law {buffer : Option Nat} (law : w.Law) (at_i : w.tasks[i]? = some ⟨pc, held⟩)
    (run : w.go maxLba i ⟨pc, held⟩ buffer = some w') : w'.Law := by
  rw [go.eq_def] at run
  cases pc with
  | idle => cases run
  | missed k size =>
    dsimp only at run
    split at run
    · exact of_spec (take_law law at_i) run
    · exact some.inj run ▸ law.turn_free at_i (free_missed k size) free_idle trivial
  | slot k p => exact fill_law law at_i run
  | noMemory p =>
    obtain ⟨k, slot⟩ : ∃ k, Slot w.cache.page k p := law.pcs i _ at_i
    exact some.inj run ▸
      law.cleared .idle at_i slot (fun _ => rfl) trivial (fun _ => rfl) fun _ => rfl
  | filled k p => exact of_spec (publish_law law at_i) run
  | beaten k p e => exact some.inj run ▸ beaten_law law at_i
  | found k p =>
    obtain ⟨b, data, after⟩ := found_law law at_i
    dsimp only at run
    rw [data] at run
    exact some.inj run ▸ after
  | writeback p stage after => exact of_spec (writeback_law law at_i) run
  | flush dev j sweep => exact some.inj run ▸ flush_law law at_i (free_flush _ _ _) dev j sweep
  | sweep dev j => exact of_spec (sweep_law law at_i) run
  | freeing data rest => exact some.inj run ▸ free_law law at_i

theorem call_law (law : w.Law) (at_i : w.tasks[i]? = some ⟨.idle, held⟩)
    (run : w.call i ⟨.idle, held⟩ op = some w') : w'.Law := by
  cases op with
  | get k size => exact of_spec (get_law law at_i k size) run
  | markDirty k => exact of_spec (markDirty_law law at_i k) run
  | put k => exact put_law law at_i run
  | flushDev dev => exact some.inj run ▸ flush_law law at_i free_idle dev 0 false
  | invalidateBlock k => exact of_spec (invalidateBlock_law law at_i k) run
  | invalidateDev dev => exact some.inj run ▸ flush_law law at_i free_idle dev 0 true
  | go buffer => cases run

theorem step_law (law : w.Law) (run : step maxLba w i op = some w') : w'.Law := by
  obtain ⟨⟨pc, held⟩, at_i, moved⟩ := bind_eq_some_iff.mp run
  have called : ∀ op, (if pc = .idle then w.call i ⟨pc, held⟩ op else none) = some w' → w'.Law := by
    intro op result
    split at result
    · rename_i idle
      subst idle
      exact call_law law at_i result
    · cases result
  cases op with
  | go buffer => exact go_law law at_i moved
  | _ => exact called _ moved

theorem start_law (tasks : Nat) (live : Nat → Bool) : (start tasks live).Law := by
  have idle : ∀ (i : Nat) (t : Task), (start tasks live).tasks[i]? = some t → t = ⟨.idle, []⟩ := by
    intro i t at_i
    exact (mem_replicate.mp (mem_of_getElem? at_i)).2
  have zero : ∀ f : Task → Nat, f ⟨.idle, []⟩ = 0 → ((start tasks live).tasks.map f).sum = 0 := by
    intro f none
    rw [start, map_replicate, none]
    simp
  refine ⟨Cache.Indexed.start tasks live, ?_, ?_, ?_, nofun, fun _ _ => rfl, nofun, nofun, ?_⟩
  · intro p
    rw [zero]
    · rfl
    · rfl
  · intro i t at_i
    rw [idle i t at_i]
    trivial
  · intro i t at_i x member
    rw [idle i t at_i] at member
    cases member
  · refine ⟨nofun, nofun, nofun, ?_, ?_⟩
    · intro b
      rw [zero _ rfl]
      exact Nat.zero_le 1
    · intro b some_free
      rw [zero _ rfl] at some_free
      cases some_free

def Reachable (maxLba : UInt32 → Option Nat) (tasks : Nat) (live : Nat → Bool) : World → Prop :=
  Reach (fun w => w = start tasks live) fun w (a : Nat × Op) w' => step maxLba w a.1 a.2 = some w'

theorem Reachable.law {tasks : Nat} {live : Nat → Bool} (reached : Reachable maxLba tasks live w) :
    w.Law := by
  apply invariant (fun w => w.Law) _ _ reached
  · rintro w rfl
    exact start_law tasks live
  · intro w a w' law run
    exact step_law law run

/-! ## The index in every state -/

end World

end CactKernel.PageCache
