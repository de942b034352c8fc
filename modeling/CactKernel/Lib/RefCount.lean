import Mathlib.Data.Set.Card

/-! # Reference counting

`held o` is the frame that an owner refers to. The counts cover the owners when
no frame has more owners than its count; a count that is too large only loses the
frame. The lemmas follow the ways in which owners and counts change together. -/

set_option autoImplicit false

namespace Lib

open Function

variable {ο φ : Type} {held held' : ο → Option φ} {refs refs' : φ → Nat} {o a : ο} {f : φ}

def Covered (held : ο → Option φ) (refs : φ → Nat) : Prop :=
  ∀ f, {o | held o = some f}.encard ≤ refs f

/-- Nobody refers to the frame. -/
def Unheld (held : ο → Option φ) (f : φ) : Prop := ∀ o, held o ≠ some f

theorem holder_update [DecidableEq ο] {w : Option φ} {x : ο} {g : φ}
    (holds : update held o w x = some g) : x = o ∧ w = some g ∨ x ≠ o ∧ held x = some g := by
  by_cases here : x = o
  · subst here
    rw [update_self] at holds
    exact .inl ⟨rfl, holds⟩
  · rw [update_of_ne here] at holds
    exact .inr ⟨here, holds⟩

theorem owners_of_other [DecidableEq ο] {g : φ} (different : g ≠ f) :
    {x | update held o (some f) x = some g} ⊆ {x | held x = some g} := by
  intro x holds
  rcases holder_update holds with ⟨_, same⟩ | ⟨_, before⟩
  · exact absurd (Option.some.inj same).symm different
  · exact before

namespace Covered

section

variable (covered : Covered held refs)

include covered

theorem mono (fewer : ∀ o f, held' o = some f → held o = some f)
    (more : ∀ f, refs f ≤ refs' f) : Covered held' refs' := by
  intro f
  have subset : {o | held' o = some f} ⊆ {o | held o = some f} := fun o => fewer o f
  calc {o | held' o = some f}.encard
      ≤ {o | held o = some f}.encard := Set.encard_le_encard subset
    _ ≤ refs f := covered f
    _ ≤ refs' f := by exact_mod_cast more f

theorem sole (single : refs f ≤ 1) (first : held o = some f)
    (second : held a = some f) : o = a := by
  have bound : {o | held o = some f}.encard ≤ 1 := by
    calc {o | held o = some f}.encard ≤ refs f := covered f
      _ ≤ 1 := by exact_mod_cast single
  exact Set.encard_le_one_iff.mp bound o a first second

theorem pos (holder : held o = some f) : 0 < refs f := by
  have one : (1 : ENat) ≤ refs f :=
    (Set.one_le_encard_iff_nonempty.mpr ⟨o, holder⟩).trans (covered f)
  exact_mod_cast one

theorem take [DecidableEq ο] [DecidableEq φ] (free : Unheld held f) :
    Covered (update held o (some f)) (update refs f 1) := by
  refine (forall_update_iff refs fun g n => _ ≤ (n : ENat)).mpr ⟨?_, fun g other => ?_⟩
  · have only : {x | update held o (some f) x = some f} ⊆ {o} := by
      intro x holds
      rcases holder_update holds with ⟨here, _⟩ | ⟨_, before⟩
      · exact here
      · exact absurd before (free x)
    calc {x | update held o (some f) x = some f}.encard
        ≤ ({o} : Set ο).encard := Set.encard_le_encard only
      _ = 1 := Set.encard_singleton o
  · exact (Set.encard_le_encard (owners_of_other other)).trans (covered g)

theorem share [DecidableEq ο] [DecidableEq φ] :
    Covered (update held o (some f)) (update refs f (refs f + 1)) := by
  refine (forall_update_iff refs fun g n => _ ≤ (n : ENat)).mpr ⟨?_, fun g other => ?_⟩
  · have subset : {x | update held o (some f) x = some f} ⊆ insert o {x | held x = some f} := by
      intro x holds
      exact (holder_update holds).imp And.left And.right
    calc {x | update held o (some f) x = some f}.encard
        ≤ (insert o {x | held x = some f}).encard := Set.encard_le_encard subset
      _ ≤ {x | held x = some f}.encard + 1 := Set.encard_insert_le _ _
      _ ≤ (refs f : ENat) + 1 := by gcongr; exact covered f
      _ = ((refs f + 1 : Nat) : ENat) := by push_cast; rfl
  · exact (Set.encard_le_encard (owners_of_other other)).trans (covered g)

theorem release [DecidableEq ο] [DecidableEq φ]
    (holder : held o = some f) :
    Covered (update held o none) (update refs f (refs f - 1)) := by
  have subset : ∀ g, {x | update held o none x = some g} ⊆ {x | held x = some g} \ {o} := by
    intro g x holds
    rcases holder_update holds with ⟨_, none⟩ | ⟨here, before⟩
    · cases none
    · exact ⟨before, here⟩
  refine (forall_update_iff refs fun g n => _ ≤ (n : ENat)).mpr ⟨?_, fun g _ => ?_⟩
  · have fewer := Set.encard_sdiff_singleton_add_one (s := {x | held x = some f}) holder
    have whole : ((refs f - 1 : Nat) : ENat) + 1 = refs f := by
      exact_mod_cast Nat.sub_add_cancel (covered.pos holder)
    have shifted := covered f
    rw [← fewer, ← whole] at shifted
    exact (Set.encard_le_encard (subset f)).trans ((ENat.add_le_add_iff_right (by simp)).mp shifted)
  · exact (Set.encard_le_encard ((subset g).trans Set.sdiff_subset)).trans (covered g)

theorem move [DecidableEq ο] [DecidableEq φ]
    (holder : held a = some f) :
    Covered (update (update held a none) o (some f)) refs := by
  have regained := (covered.release holder).share (o := o) (f := f)
  rwa [update_idem, update_self, Nat.sub_add_cancel (covered.pos holder), update_eq_self]
    at regained

end

end Covered

/-! ## Owners that share with nobody -/

/-- A guarded owner is the only owner of its frame. -/
def Exclusive (guarded : ο → Prop) (held : ο → Option φ) : Prop :=
  ∀ o a f, guarded o → held o = some f → held a = some f → a = o

namespace Exclusive

variable {guarded guarded' : ο → Prop}

theorem fewer (exclusive : Exclusive guarded held)
    (fewer : ∀ o f, held' o = some f → held o = some f)
    (still : ∀ o f, guarded' o → held' o = some f → guarded o) : Exclusive guarded' held' := by
  intro o a f guard first second
  exact exclusive o a f (still o f guard first) (fewer o f first) (fewer a f second)

theorem take [DecidableEq ο] (exclusive : Exclusive guarded held) (free : Unheld held f)
    (still : ∀ x g, x ≠ o → guarded' x → held x = some g → guarded x) :
    Exclusive guarded' (update held o (some f)) := by
  intro x a g guard first second
  rcases holder_update first with ⟨here, new⟩ | ⟨here, first⟩ <;>
    rcases holder_update second with ⟨there, new'⟩ | ⟨there, second⟩
  · rw [here, there]
  · exact absurd (new ▸ second) (free a)
  · exact absurd (new' ▸ first) (free x)
  · exact exclusive x a g (still x g here guard first) first second

theorem share [DecidableEq ο] (exclusive : Exclusive guarded held) (source : held a = some f)
    (shareable : ¬ guarded a)
    (still : ∀ x g, x ≠ o → guarded' x → held x = some g → guarded x) (new : ¬ guarded' o) :
    Exclusive guarded' (update held o (some f)) := by
  intro x b g guard first second
  have here : x ≠ o := fun same => new (same ▸ guard)
  rw [update_of_ne here] at first
  have guardBefore := still x g here guard first
  rcases holder_update second with ⟨_, new⟩ | ⟨_, second⟩
  · cases new
    have same := exclusive x a f guardBefore first source
    exact absurd (same ▸ guardBefore) shareable
  · exact exclusive x b g guardBefore first second

end Exclusive

end Lib
