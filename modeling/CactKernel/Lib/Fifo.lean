import Mathlib.Tactic.Ring

/-! # First in, first out

A stream of elements that are sent and later got in the same order. `Fifo.Move` is
what can happen to it. `Drains rest chunks` says that reads returned the chunks of
what was left, one after another, and after the last one only nothing. -/

set_option autoImplicit false

namespace Lib

open List

structure Fifo (α : Type) where
  sent : List α
  got : List α
  ordered : got <+: sent

namespace Fifo

variable {α : Type}

def rest (f : Fifo α) : List α := f.sent.drop f.got.length

theorem got_append_rest (f : Fifo α) : f.got ++ f.rest = f.sent := by
  obtain ⟨left, same⟩ := f.ordered
  rw [rest, ← same, drop_left]

def accept (f : Fifo α) (bytes : List α) : Fifo α where
  sent := f.sent ++ bytes
  got := f.got
  ordered := f.ordered.trans (List.prefix_append _ _)

def deliver (f : Fifo α) (max : Nat) : Fifo α where
  sent := f.sent
  got := f.got ++ f.rest.take max
  ordered := by
    refine ⟨f.rest.drop max, ?_⟩
    rw [List.append_assoc, List.take_append_drop, f.got_append_rest]

theorem rest_accept (f : Fifo α) (bytes : List α) : (f.accept bytes).rest = f.rest ++ bytes :=
  drop_append_of_le_length f.ordered.length_le

theorem rest_deliver (f : Fifo α) (max : Nat) : (f.deliver max).rest = f.rest.drop max := by
  apply (append_right_inj (f.deliver max).got).mp
  rw [got_append_rest]
  change f.sent = f.got ++ f.rest.take max ++ f.rest.drop max
  rw [append_assoc, take_append_drop, f.got_append_rest]

inductive Move : Fifo α → Fifo α → Prop
  | stay (f : Fifo α) : Move f f
  | accept (f : Fifo α) (bytes : List α) : Move f (f.accept bytes)
  | deliver (f : Fifo α) (max : Nat) : Move f (f.deliver max)

end Fifo

inductive Drains {α : Type} : List α → List (List α) → Prop
  | start (rest : List α) : Drains rest []
  | chunk {rest chunk : List α} {more : List (List α)} (some_left : chunk ≠ [])
      (others : Drains rest more) : Drains (chunk ++ rest) (chunk :: more)
  | ended {more : List (List α)} (others : Drains [] more) : Drains [] ([] :: more)

namespace Drains

variable {α : Type} {rest : List α} {chunks : List (List α)}

theorem read (drains : Drains rest chunks) {max : Nat} (positive : 0 < max) :
    Drains rest (chunks ++ [(rest.drop chunks.flatten.length).take max]) := by
  induction drains with
  | start rest =>
    cases rest with
    | nil =>
      rw [flatten_nil, drop_nil, take_nil]
      exact .ended (.start [])
    | cons x rest =>
      have last : Drains ((x :: rest).take max ++ (x :: rest).drop max) [(x :: rest).take max] :=
        .chunk (by rw [Ne, take_eq_nil_iff]; simp; omega) (.start _)
      rw [take_append_drop] at last
      exact last
  | @chunk rest chunk more some_left others ih =>
    rw [flatten_cons, length_append, cons_append, ← drop_drop,
      drop_left]
    exact .chunk some_left ih
  | ended others ih => exact .ended ih

end Drains

end Lib
