import CactKernel.Block.PageCache
import CactKernel.Lib.Chain
import Mathlib.Data.List.Perm.Subperm

/-! # The chains and the LRU list

The pages on the hash chains and on the LRU list, as sets. Each function of the cache
that changes links is described by the set it leaves, and the loops end. -/

set_option autoImplicit false

namespace CactKernel.PageCache

open Function (update update_of_ne update_self update_apply update_idem)
open Lib List

/-- What is left of a page that is removed. -/
def Page.cleared (x : Page) : Page :=
  { x with valid := false, dirty := false, used := false, pin := 0 }

namespace Cache

variable {c : Cache} {on : Nat → Prop} {p : Nat}

/-- The chains hold the pages of `on`, each in the bucket of its key. -/
def Hashed (c : Cache) (on : Nat → Prop) : Prop :=
  ∀ b, ∃ l, Chain c.hashNext (c.hashTable b) l ∧
    ∀ p, p ∈ l ↔ on p ∧ hash (c.page p).key = b

/-- The LRU list holds the pages of `on`, and no other page has links. -/
structure Listed (c : Cache) (on : Nat → Prop) (l : List Nat) : Prop where
  forth : Chain c.lruNext c.lruHead l
  back : Chain c.lruPrev c.lruTail l.reverse
  mem : ∀ p, p ∈ l ↔ on p
  off : ∀ p, ¬ on p → c.lruPrev p = none ∧ c.lruNext p = none

def InPool (on : Nat → Prop) : Prop := ∀ p, on p → p < pcMaxPages

variable {l : List Nat}

theorem Hashed.congr {d : Cache} {on' : Nat → Prop} (hashed : c.Hashed on)
    (table : d.hashTable = c.hashTable) (next : d.hashNext = c.hashNext)
    (same : ∀ q, on q ↔ on' q) (keys : ∀ q, on q → (d.page q).key = (c.page q).key) :
    d.Hashed on' := by
  intro b
  obtain ⟨m, chain, mem⟩ := hashed b
  refine ⟨m, by rw [table, next]; exact chain, fun q => ?_⟩
  rw [mem, ← same]
  exact and_congr_right fun there => by rw [keys q there]

theorem length_le (distinct : l.Nodup) (inside : ∀ p ∈ l, p < pcMaxPages) :
    l.length ≤ pcMaxPages := by
  have below : l ⊆ range pcMaxPages := fun p member => mem_range.mpr (inside p member)
  have length := (distinct.subperm below).length_le
  rwa [length_range] at length

/-! ## Lookup -/

theorem hashFindFrom_eq (k : Key) (l : List Nat) {fuel : Nat} {h : Option Nat}
    (chain : Chain c.hashNext h l) (enough : l.length ≤ fuel) :
    c.hashFindFrom k fuel h = some (l.find? fun p => (c.page p).key = k) := by
  induction l generalizing fuel h with
  | nil =>
    rw [(chain_nil _ _).mp chain, hashFindFrom]
    rfl
  | cons p l ih =>
    obtain _ | fuel := fuel
    · cases enough
    rw [chain.1, hashFindFrom, find?_cons]
    by_cases same : (c.page p).key = k
    · rw [if_pos same, decide_eq_true same]
    · rw [if_neg same, decide_eq_false same, ih chain.2 (Nat.le_of_succ_le_succ enough)]

theorem Hashed.hashFind (hashed : c.Hashed on) (inPool : InPool on) (k : Key) :
    (c.hashFind k = some none ∧ ∀ p, on p → (c.page p).key ≠ k) ∨
      ∃ p, c.hashFind k = some (some p) ∧ on p ∧ (c.page p).key = k := by
  obtain ⟨l, chain, mem⟩ := hashed (hash k)
  have short := length_le chain.nodup fun p member => inPool p ((mem p).mp member).1
  rw [Cache.hashFind, hashFindFrom_eq k l chain short]
  cases found : l.find? fun p => (c.page p).key = k with
  | none =>
    refine .inl ⟨rfl, ?_⟩
    intro p there same
    have member : p ∈ l := (mem p).mpr ⟨there, by rw [same]⟩
    have differ := find?_eq_none.mp found p member
    simp only [decide_eq_true_eq] at differ
    exact differ same
  | some p =>
    have member := mem_of_find?_eq_some found
    have same := find?_some found
    simp only [decide_eq_true_eq] at same
    exact .inr ⟨p, rfl, ((mem p).mp member).1, same⟩

/-! ## Removal from a chain -/

/-- A page taken out of its chain by the page before it. -/
def unhash (c : Cache) (bucket p : Nat) (before : Option Nat) : Cache :=
  let c := c.setSlot bucket before (c.hashNext p)
  { c with hashNext := update c.hashNext p none }

@[simp] theorem page_unhash (c : Cache) (bucket p : Nat) (before : Option Nat) :
    (c.unhash bucket p before).page = c.page := by
  cases before <;> rfl

theorem hashRemoveFrom_eq (bucket : Nat) (rest : List Nat) {done : List Nat} {fuel : Nat}
    {h : Option Nat} (chain : Chain c.hashNext h rest) (enough : rest.length ≤ fuel)
    (member : p ∈ rest) :
    ∃ front back, rest = front ++ p :: back ∧
      c.hashRemoveFrom bucket p fuel done.getLast? h =
        some (c.unhash bucket p (done ++ front).getLast?) := by
  induction rest generalizing done fuel h with
  | nil => cases member
  | cons q rest ih =>
    obtain _ | fuel := fuel
    · cases enough
    rw [chain.1, hashRemoveFrom]
    by_cases same : q = p
    · refine ⟨[], rest, by rw [same, nil_append], ?_⟩
      rw [if_pos same, append_nil]
      rfl
    · have later : p ∈ rest := (mem_cons.mp member).resolve_left fun eq => same eq.symm
      obtain ⟨front, back, split, run⟩ :=
        @ih (done ++ [q]) fuel _ chain.2 (Nat.le_of_succ_le_succ enough) later
      refine ⟨q :: front, back, by rw [split, cons_append], ?_⟩
      rw [if_neg same, ← getLast?_concat, run, append_assoc, singleton_append]

theorem Hashed.hashRemove (hashed : c.Hashed on) (inPool : InPool on) (there : on p) :
    ∃ d, c.hashRemove p = some d ∧ d.Hashed (fun q => on q ∧ q ≠ p) ∧ d.page = c.page ∧
      ∀ {on l}, c.Listed on l → d.Listed on l := by
  obtain ⟨l, chain, mem⟩ := hashed (hash (c.page p).key)
  have short := length_le chain.nodup fun q member => inPool q ((mem q).mp member).1
  have member : p ∈ l := (mem p).mpr ⟨there, rfl⟩
  obtain ⟨front, back, rfl, run⟩ :=
    @hashRemoveFrom_eq c p (hash (c.page p).key) l [] pcMaxPages _ chain short member
  rw [nil_append] at run
  refine ⟨_, run, ?_, page_unhash .., fun listed => ?_⟩
  · intro b
    by_cases same : b = hash (c.page p).key
    · subst same
      refine ⟨front ++ back, ?_, fun q => ?_⟩
      · have unlinked := chain.unlink
        cases last : front.getLast? with
        | none =>
          rw [last] at unlinked
          rw [unhash, setSlot]
          dsimp only
          rw [update_self]
          exact unlinked
        | some q =>
          rw [last] at unlinked
          exact unlinked
      · rw [page_unhash, chain.mem_unlink, mem q, and_right_comm]
    · obtain ⟨m, chain', mem'⟩ := hashed b
      -- the other chains share no page with this one
      have away : ∀ q ∈ front ++ p :: back, q ∉ m := fun q inside outside =>
        same (((mem' q).mp outside).2.symm.trans ((mem q).mp inside).2)
      refine ⟨m, ?_, fun q => ?_⟩
      · cases last : front.getLast? with
        | none =>
          rw [unhash, setSlot]
          dsimp only
          rw [update_of_ne same]
          exact chain'.update (away p member)
        | some q =>
          have out_q : q ∉ m := away q (mem_append_left _ (mem_of_getLast? last))
          exact (chain'.update out_q).update (away p member)
      · rw [page_unhash, mem' q, and_right_comm]
        refine (and_iff_left_of_imp fun inside => ?_).symm
        rintro rfl
        exact same inside.2.symm
  · cases front.getLast? with
    | none | some r => exact ⟨listed.forth, listed.back, listed.mem, listed.off⟩

theorem Hashed.hashInsert (hashed : c.Hashed on) (absent : ¬ on p) :
    (c.hashInsert p).Hashed fun q => on q ∨ q = p := by
  intro b
  obtain ⟨l, chain, mem⟩ := hashed b
  have outside : p ∉ l := fun member => absent ((mem p).mp member).1
  by_cases same : b = hash (c.page p).key
  · subst same
    refine ⟨p :: l, ?_, ?_⟩
    · rw [Cache.hashInsert]
      dsimp only
      rw [update_self]
      exact chain.pushFront outside
    · intro q
      change q ∈ p :: l ↔ (on q ∨ q = p) ∧ hash (c.page q).key = hash (c.page p).key
      rw [mem_cons, mem q]
      by_cases here : q = p
      · simp [here]
      · simp [here]
  · refine ⟨l, ?_, ?_⟩
    · rw [Cache.hashInsert]
      dsimp only
      rw [update_of_ne same]
      exact chain.update outside
    · intro q
      change q ∈ l ↔ (on q ∨ q = p) ∧ hash (c.page q).key = b
      rw [mem q]
      by_cases here : q = p
      · simp [here, Ne.symm same]
      · simp [here]

/-! ## The LRU list -/

/-- The fields that `_lru_remove` and `_lru_touch` leave alone. -/
structure SameHash (c d : Cache) : Prop where
  page : d.page = c.page
  hashTable : d.hashTable = c.hashTable
  hashNext : d.hashNext = c.hashNext

theorem SameHash.hashed {d : Cache} (same : SameHash c d) (hashed : c.Hashed on) : d.Hashed on :=
  hashed.congr same.hashTable same.hashNext (fun _ => .rfl) fun _ _ => by rw [same.page]

theorem lruRemove_eq (c : Cache) (p : Nat) : SameHash c (c.lruRemove p) ∧
    (c.lruPrev p ≠ some p → c.lruNext p ≠ some p →
      (c.lruRemove p).lruNext = update (skip c.lruNext (c.lruPrev p) p) p none ∧
      (c.lruRemove p).lruPrev = update (skip c.lruPrev (c.lruNext p) p) p none ∧
      (c.lruRemove p).lruHead = skipHead c.lruNext c.lruHead (c.lruPrev p) p ∧
      (c.lruRemove p).lruTail = skipHead c.lruPrev c.lruTail (c.lruNext p) p) := by
  rw [lruRemove]
  cases before : c.lruPrev p with
  | none =>
    cases after : c.lruNext p with
    | none | some r => exact ⟨⟨rfl, rfl, rfl⟩, fun _ _ => ⟨rfl, rfl, after.symm, rfl⟩⟩
  | some q =>
    dsimp only
    by_cases loop : q = p
    · subst loop
      rw [update_self]
      cases after : c.lruNext q with
      | none | some r => exact ⟨⟨rfl, rfl, rfl⟩, fun differ => absurd rfl differ⟩
    · rw [update_of_ne (Ne.symm loop)]
      cases after : c.lruNext p with
      | none | some r =>
        refine ⟨⟨rfl, rfl, rfl⟩, fun _ _ => ⟨?_, rfl, rfl, rfl⟩⟩
        rw [skip, after]

theorem Listed.congr {on' : Nat → Prop} (listed : c.Listed on l)
    (same : ∀ q, on q ↔ on' q) : c.Listed on' l :=
  ⟨listed.forth, listed.back, fun q => (listed.mem q).trans (same q),
    fun q off => listed.off q fun there => off ((same q).mp there)⟩

theorem skip_off {next : Nat → Option Nat} {before : Option Nat} {q : Nat}
    (outside : before ≠ some q) (ends : next q = none) : skip next before p q = none := by
  cases before with
  | none => exact ends
  | some r =>
    have differ : q ≠ r := by
      rintro rfl
      exact outside rfl
    exact (update_of_ne differ _ _).trans ends

/-- A page of the list has the neighbours that its links name. -/
theorem Listed.split (listed : c.Listed on l) (there : on p) :
    ∃ front back, l = front ++ p :: back ∧
      Chain c.lruPrev c.lruTail (back.reverse ++ p :: front.reverse) ∧
      c.lruPrev p = front.getLast? ∧ c.lruNext p = back.reverse.getLast? := by
  obtain ⟨front, back, rfl⟩ := append_of_mem ((listed.mem p).mpr there)
  have backward := listed.back
  rw [reverse_append, reverse_cons, append_assoc, singleton_append] at backward
  refine ⟨front, back, rfl, backward, ?_, ?_⟩
  · rw [backward.next_eq, head?_reverse]
  · rw [listed.forth.next_eq, getLast?_reverse]

theorem Listed.lruRemove (listed : c.Listed on l) (there : on p) :
    ∃ l', (c.lruRemove p).Listed (fun q => on q ∧ q ≠ p) l' := by
  obtain ⟨front, back, rfl, backward, before, after⟩ := listed.split there
  have forth := listed.forth
  have prev_mem : ∀ q, c.lruPrev p = some q → q ∈ front ++ back := by
    rw [before]
    exact fun q last => mem_append_left _ (mem_of_getLast? last)
  have next_mem : ∀ q, c.lruNext p = some q → q ∈ front ++ back := by
    rw [after]
    exact fun q last => mem_append_right _ (mem_reverse.mp (mem_of_getLast? last))
  obtain ⟨next, prev, head, tail⟩ := (lruRemove_eq c p).2
    (fun loop => forth.not_mem (prev_mem p loop)) fun loop => forth.not_mem (next_mem p loop)
  refine ⟨front ++ back, ?_, ?_, ?_, ?_⟩
  · rw [next, head, before]
    exact forth.unlink
  · rw [prev, tail, after, reverse_append]
    exact backward.unlink
  · intro q
    rw [forth.mem_unlink, listed.mem]
  · intro q off
    rw [next, prev]
    by_cases same : q = p
    · rw [same, update_self, update_self]
      exact ⟨rfl, rfl⟩
    have absent : ¬ on q := fun on_q => off ⟨on_q, same⟩
    have away : q ∉ front ++ back :=
      fun member => absent ((listed.mem q).mp (forth.mem_unlink.mp member).1)
    obtain ⟨prev_q, next_q⟩ := listed.off q absent
    rw [update_of_ne same, update_of_ne same]
    exact ⟨skip_off (fun near => away (next_mem q near)) prev_q,
      skip_off (fun near => away (prev_mem q near)) next_q⟩

theorem lruPush_eq (c : Cache) (p : Nat) : SameHash c (c.lruPush p) ∧
    (c.lruPush p).lruNext = update c.lruNext p c.lruHead ∧
    (c.lruPush p).lruPrev = (match c.lruHead with
      | some q => update (update c.lruPrev p none) q (some p)
      | none => update c.lruPrev p none) ∧
    (c.lruPush p).lruHead = some p ∧
    (c.lruPush p).lruTail = (if c.lruTail = none then some p else c.lruTail) := by
  rw [lruPush]
  cases head : c.lruHead with
  | none | some q =>
    dsimp only
    split <;> exact ⟨⟨rfl, rfl, rfl⟩, rfl, rfl, rfl, rfl⟩

theorem Listed.lruPush (listed : c.Listed on l) (absent : ¬ on p) :
    (c.lruPush p).Listed (fun q => on q ∨ q = p) (p :: l) := by
  obtain ⟨_, next, prev, head, tail⟩ := lruPush_eq c p
  have outside : p ∉ l := fun member => absent ((listed.mem p).mp member)
  refine ⟨?_, ?_, ?_, ?_⟩
  · rw [next, head]
    exact listed.forth.pushFront outside
  · rw [prev, tail, reverse_cons]
    cases l with
    | nil =>
      have empty : c.lruHead = none := listed.forth
      have no_tail : c.lruTail = none := listed.back
      rw [empty, no_tail, if_pos rfl]
      exact ⟨rfl, update_self ..⟩
    | cons h m =>
      have first : c.lruHead = some h := listed.forth.1
      have last := listed.back.head_eq
      have some_tail : c.lruTail ≠ none := by
        rw [last, reverse_cons]
        intro nothing
        exact absurd (head?_eq_none_iff.mp nothing) (by simp)
      rw [first, if_neg some_tail, reverse_cons]
      have still : Chain (update c.lruPrev p none) c.lruTail (m.reverse ++ [h]) := by
        rw [← reverse_cons]
        exact listed.back.update fun member => outside (mem_reverse.mp member)
      apply still.pushBack
      · rw [← reverse_cons]
        exact fun member => outside (mem_reverse.mp member)
      · exact update_self ..
  · intro q
    rw [mem_cons, listed.mem q, or_comm]
  · intro q off
    have differ : q ≠ p := fun same => off (.inr same)
    have away : ¬ on q := fun on_q => off (.inl on_q)
    obtain ⟨prev_q, next_q⟩ := listed.off q away
    rw [next, prev, update_of_ne differ]
    refine ⟨?_, next_q⟩
    cases first : c.lruHead with
    | none =>
      change update c.lruPrev p none q = none
      rw [update_of_ne differ, prev_q]
    | some h =>
      have on_h : on h := by
        rw [← listed.mem h]
        rw [listed.forth.head_eq] at first
        exact mem_of_head? first
      change update (update c.lruPrev p none) h (some p) q = none
      rw [update_of_ne, update_of_ne differ, prev_q]
      rintro rfl
      exact away on_h

theorem lruTouch_same (c : Cache) (p : Nat) : SameHash c (c.lruTouch p) := by
  rw [lruTouch]
  split
  · exact ⟨rfl, rfl, rfl⟩
  split
  · obtain ⟨page, table, next⟩ := (lruRemove_eq c p).1
    obtain ⟨page', table', next'⟩ := (lruPush_eq (c.lruRemove p) p).1
    exact ⟨page'.trans page, table'.trans table, next'.trans next⟩
  · exact (lruPush_eq c p).1

theorem Listed.touch (listed : c.Listed on l) (there : on p) :
    ∃ l', (c.lruTouch p).Listed on l' := by
  rw [lruTouch]
  by_cases first : c.lruHead = some p
  · rw [if_pos first]
    exact ⟨l, listed⟩
  have before : c.lruPrev p ≠ none := by
    obtain ⟨front, back, rfl, -, before, -⟩ := listed.split there
    rw [before]
    intro none
    rw [getLast?_eq_none_iff.mp none] at listed
    exact first listed.forth.1
  rw [if_neg first, if_pos (.inl before)]
  obtain ⟨l', removed⟩ := listed.lruRemove there
  refine ⟨p :: l', (removed.lruPush fun absurd => absurd.2 rfl).congr ?_⟩
  intro q
  by_cases same : q = p
  · simp [same, there]
  · simp [same]

theorem Listed.enter (listed : c.Listed on l) (absent : ¬ on p) :
    ∃ l', (c.lruTouch p).Listed (fun q => on q ∨ q = p) l' := by
  obtain ⟨prev, next⟩ := listed.off p absent
  have not_first : c.lruHead ≠ some p := by
    rw [listed.forth.head_eq]
    exact fun first => absent ((listed.mem p).mp (mem_of_head? first))
  have not_last : c.lruTail ≠ some p := by
    rw [listed.back.head_eq]
    exact fun last => absent ((listed.mem p).mp (mem_reverse.mp (mem_of_head? last)))
  have alone : ¬ (c.lruPrev p ≠ none ∨ c.lruNext p ≠ none ∨ c.lruTail = some p) := by
    rintro (some_prev | some_next | last)
    · exact some_prev prev
    · exact some_next next
    · exact not_last last
  rw [lruTouch, if_neg not_first, if_neg alone]
  exact ⟨_, listed.lruPush absent⟩

/-! ## The whole index -/

def On (c : Cache) (p : Nat) : Prop := (c.page p).valid = true

instance (c : Cache) (p : Nat) : Decidable (c.On p) := inferInstanceAs (Decidable (_ = _))

structure Indexed (c : Cache) : Prop where
  hashed : c.Hashed c.On
  listed : ∃ l, c.Listed c.On l
  inPool : InPool c.On
  keys : ∀ p q, c.On p → c.On q → (c.page p).key = (c.page q).key → p = q

theorem page_setPage (c : Cache) (p q : Nat) (x : Page) :
    (c.setPage p x).page q = if q = p then x else c.page q :=
  update_apply c.page p x q

theorem Listed.setPage {x : Page} (listed : c.Listed on l) : (c.setPage p x).Listed on l :=
  ⟨listed.forth, listed.back, listed.mem, listed.off⟩

theorem Indexed.setPage {x : Page} (indexed : c.Indexed) (valid : x.valid = (c.page p).valid)
    (key : x.valid = true → x.key = (c.page p).key) : (c.setPage p x).Indexed := by
  have on : ∀ q, (c.setPage p x).On q ↔ c.On q := by
    intro q
    rw [On, page_setPage, On]
    split
    · rename_i same
      rw [same, valid]
    · exact Iff.rfl
  have keep : ∀ q, c.On q → ((c.setPage p x).page q).key = (c.page q).key := by
    intro q there
    rw [page_setPage]
    split
    · rename_i same
      subst same
      exact key (valid.trans there)
    · rfl
  obtain ⟨l, listed⟩ := indexed.listed
  refine ⟨indexed.hashed.congr rfl rfl (fun q => (on q).symm) keep,
    ⟨l, listed.setPage.congr fun q => (on q).symm⟩, ?_, ?_⟩
  · exact fun q there => indexed.inPool q ((on q).mp there)
  · intro q r on_q on_r same
    rw [on] at on_q on_r
    rw [keep q on_q, keep r on_r] at same
    exact indexed.keys q r on_q on_r same

theorem Indexed.lruTouch (indexed : c.Indexed) (there : c.On p) : (c.lruTouch p).Indexed := by
  have same := lruTouch_same c p
  have on : (c.lruTouch p).On = c.On := by
    funext q
    rw [On, same.page, On]
  obtain ⟨l, listed⟩ := indexed.listed
  refine ⟨?_, ?_, ?_, ?_⟩
  · rw [on]
    exact same.hashed indexed.hashed
  · rw [on]
    exact listed.touch there
  · rw [on]
    exact indexed.inPool
  · rw [on, same.page]
    exact indexed.keys

theorem Indexed.remove (indexed : c.Indexed) (there : c.On p) :
    ∃ d, c.remove p = some d ∧ d.Indexed ∧ d.page = update c.page p (c.page p).cleared := by
  have same := (lruRemove_eq c p).1
  obtain ⟨l, listed⟩ := indexed.listed
  obtain ⟨m, unlisted⟩ := listed.lruRemove there
  obtain ⟨d, run, unhashed, page, lru⟩ :=
    (same.hashed indexed.hashed).hashRemove indexed.inPool there
  rw [same.page] at page
  have pages : (d.clear p).page = update c.page p (c.page p).cleared := by
    rw [clear, Cache.setPage, page]
    rfl
  have on : ∀ q, c.On q ∧ q ≠ p ↔ (d.clear p).On q := by
    intro q
    rw [On, On, pages, update_apply]
    split
    · rename_i same
      exact iff_of_false (fun both => both.2 same) Bool.false_ne_true
    · rename_i differ
      exact and_iff_left differ
  have key : ∀ q, ((d.clear p).page q).key = (c.page q).key := by
    intro q
    rw [pages, update_apply]
    split
    · rename_i same
      rw [same]
      rfl
    · rfl
  refine ⟨d.clear p, by rw [Cache.remove, run]; rfl, ⟨?_, ⟨m, ?_⟩, ?_, ?_⟩, pages⟩
  · exact unhashed.congr rfl rfl on fun q _ => by rw [key q, page]
  · exact (lru unlisted).setPage.congr on
  · exact fun q there => indexed.inPool q ((on q).mpr there).1
  · intro q r on_q on_r same
    rw [key q, key r] at same
    exact indexed.keys q r ((on q).mpr on_q).1 ((on r).mpr on_r).1 same

theorem Indexed.insert {x : Page} (indexed : c.Indexed) (absent : ¬ c.On p)
    (inside : p < pcMaxPages)
    (fresh : ∀ q, c.On q → (c.page q).key ≠ (c.page p).key) (valid : x.valid = true)
    (same : x.key = (c.page p).key) :
    (((c.setPage p x).hashInsert p).lruTouch p).Indexed ∧
      (((c.setPage p x).hashInsert p).lruTouch p).page = update c.page p x := by
  have touched := lruTouch_same ((c.setPage p x).hashInsert p) p
  have pages : _ = update c.page p x := touched.page
  have key : ∀ q, (update c.page p x q).key = (c.page q).key := by
    intro q
    rw [update_apply]
    split
    · rename_i here
      rw [here, same]
    · rfl
  have hashed : (c.setPage p x).Hashed c.On :=
    indexed.hashed.congr rfl rfl (fun _ => .rfl) fun q _ => key q
  have chained := touched.hashed (hashed.hashInsert absent)
  obtain ⟨l, listed⟩ := indexed.listed
  have before : ((c.setPage p x).hashInsert p).Listed c.On l :=
    ⟨listed.forth, listed.back, listed.mem, listed.off⟩
  obtain ⟨l', entered⟩ := before.enter absent
  generalize ((c.setPage p x).hashInsert p).lruTouch p = d at pages chained entered
  have on : ∀ q, c.On q ∨ q = p ↔ d.On q := by
    intro q
    rw [On, On, pages, update_apply]
    split
    · rename_i here
      exact iff_of_true (.inr here) valid
    · rename_i differ
      exact or_iff_left differ
  refine ⟨⟨chained.congr rfl rfl on fun _ _ => rfl, ⟨l', entered.congr on⟩, ?_, ?_⟩, pages⟩
  · intro q there
    rcases (on q).mpr there with on_q | rfl
    · exact indexed.inPool q on_q
    · exact inside
  · intro q r on_q on_r equal
    rw [pages, key q, key r] at equal
    rcases (on q).mpr on_q with old_q | rfl
    · rcases (on r).mpr on_r with old_r | rfl
      · exact indexed.keys q r old_q old_r equal
      · exact absurd equal (fresh q old_q)
    · rcases (on r).mpr on_r with old_r | rfl
      · exact absurd equal.symm (fresh r old_r)
      · rfl

/-! ## Eviction -/

theorem evictFrom_eq (l : List Nat) {fuel : Nat} {h : Option Nat} (chain : Chain c.lruPrev h l)
    (enough : l.length ≤ fuel) :
    c.evictFrom fuel h =
      match l.find? fun p => (c.page p).pin = 0 with
      | none => some (none, c)
      | some p => ((c.writeback p).remove p).map fun d => (some p, d) := by
  induction l generalizing fuel h with
  | nil =>
    rw [(chain_nil _ _).mp chain, evictFrom]
    rfl
  | cons p l ih =>
    obtain _ | fuel := fuel
    · cases enough
    rw [chain.1, evictFrom, find?_cons]
    by_cases free : (c.page p).pin = 0
    · rw [if_pos free, decide_eq_true free]
    · rw [if_neg free, decide_eq_false free, ih chain.2 (Nat.le_of_succ_le_succ enough)]

theorem Indexed.evict (indexed : c.Indexed) (there : c.On p) :
    ∃ d, (c.writeback p).remove p = some d ∧ d.Indexed ∧
      d.page = update c.page p (c.page p).cleared := by
  rw [writeback]
  by_cases dirty : (c.page p).dirty = true
  · rw [if_pos dirty]
    have clean : (c.setPage p { c.page p with dirty := false }).Indexed :=
      indexed.setPage rfl fun _ => rfl
    have still : (c.setPage p { c.page p with dirty := false }).On p := by
      rw [On, page_setPage, if_pos rfl]
      exact there
    obtain ⟨d, run, after, page⟩ := clean.remove still
    refine ⟨d, run, after, page.trans ?_⟩
    rw [page_setPage, if_pos rfl]
    exact update_idem ..
  · rw [if_neg dirty]
    exact indexed.remove there

theorem Indexed.allocPage (indexed : c.Indexed) :
    c.allocPage = some (none, c) ∨
      (∃ p, c.allocPage = some (some p, c) ∧ p < pcMaxPages ∧ (c.page p).used = false) ∨
      ∃ p d, c.allocPage = some (some p, d) ∧ c.On p ∧ (c.page p).pin = 0 ∧ d.Indexed ∧
        d.page = update c.page p (c.page p).cleared := by
  rw [Cache.allocPage]
  split
  · rename_i p found
    have unused := find?_some found
    rw [Bool.not_eq_true'] at unused
    exact .inr (.inl ⟨p, rfl, mem_range.mp (mem_of_find?_eq_some found), unused⟩)
  obtain ⟨l, listed⟩ := indexed.listed
  have short : l.reverse.length ≤ pcMaxPages := by
    apply length_le listed.back.nodup
    intro p member
    exact indexed.inPool p ((listed.mem p).mp (mem_reverse.mp member))
  rw [evictOne, evictFrom_eq l.reverse listed.back short]
  split
  · exact .inl rfl
  rename_i p found
  have member := mem_reverse.mp (mem_of_find?_eq_some found)
  have there := (listed.mem p).mp member
  have free := find?_some found
  simp only [decide_eq_true_eq] at free
  obtain ⟨d, run, after, page⟩ := indexed.evict there
  exact .inr (.inr ⟨p, d, by rw [run]; rfl, there, free, after, page⟩)

theorem Indexed.detach (indexed : c.Indexed) (there : c.On p) :
    ∃ d, c.detach p = some ((c.page p).data, d) ∧ d.Indexed ∧
      d.page = update c.page p { (c.page p).cleared with data := none } := by
  obtain ⟨d, run, after, page⟩ := indexed.remove there
  have here : d.page p = (c.page p).cleared := by rw [page, update_self]
  refine ⟨d.setPage p { d.page p with data := none }, ?_, ?_, ?_⟩
  · rw [Cache.detach, run, Option.map_some, here]
    rfl
  · exact after.setPage rfl fun _ => rfl
  · rw [Cache.setPage, page, update_self, update_idem]

theorem Indexed.hashFind (indexed : c.Indexed) (k : Key) :
    (c.hashFind k = some none ∧ ∀ p, c.On p → (c.page p).key ≠ k) ∨
      ∃ p, c.hashFind k = some (some p) ∧ c.On p ∧ (c.page p).key = k :=
  indexed.hashed.hashFind indexed.inPool k

theorem Indexed.start (tasks : Nat) (live : Nat → Bool) :
    (World.start tasks live).cache.Indexed := by
  refine ⟨?_, ⟨[], rfl, rfl, ?_, fun _ _ => ⟨rfl, rfl⟩⟩, ?_, ?_⟩
  · intro b
    refine ⟨[], rfl, ?_⟩
    intro p
    exact ⟨(fun member => nomatch member), fun both => nomatch both.1⟩
  · intro p
    exact ⟨(fun member => nomatch member), fun there => nomatch there⟩
  · exact fun p there => nomatch there
  · exact fun p q there => nomatch there

end Cache

end CactKernel.PageCache
