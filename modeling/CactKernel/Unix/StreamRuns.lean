import CactKernel.Unix.StreamClose

/-! # Runs of a connection

In every state that is reached the bytes read on one side come first among the bytes
written on the other; and from a state in which one side is closed, every run goes on
with the other side reading what is left, and then the end of the file. -/

set_option autoImplicit false

namespace CactKernel.Unix

open Lib Endpoint List Option

namespace Session

variable {n t : Session} {s : Side}

def Step (n : Session) (a : StreamAction) (t : Session) : Prop := n.step a = some t

structure Law (n : Session) : Prop where
  aimed : n.Aimed
  closing : n.Closing
  inOrder : ∀ s, n.InOrder s
  stream : ∀ s, ∃ f, n.Refines s f

theorem Law.start : start.Law where
  aimed := .start
  closing := .start
  inOrder := fun _ => .inl nofun
  stream := fun s => ⟨_, .start s⟩

variable {a : StreamAction}

theorem Law.step (law : n.Law) (move : n.Step a t) : t.Law := by
  have turn := step_turn move
  refine ⟨turn.aimed law.aimed, step_closing move law.aimed law.closing, ?_, ?_⟩
  · exact fun s => turn.inOrder law.aimed (law.inOrder s)
  · intro s
    obtain ⟨f, refines⟩ := law.stream s
    obtain ⟨g, _, later⟩ := turn.refines law.aimed refines
    exact ⟨g, later⟩

theorem law_of_reached (reached : Reach (· = Session.start) Step n) : n.Law := by
  apply reached.invariant Law
  · rintro _ rfl
    exact .start
  · exact fun _ _ _ law move => law.step move

/-- What is left to read. -/
def left (n : Session) (s : Side) : List UInt8 :=
  (n.accepted s).drop (n.received s.other).length

theorem Law.contents (law : n.Law) (s : Side) : (n.ep s.other).rx.contents = n.left s := by
  obtain ⟨f, refines⟩ := law.stream s
  rw [left, refines.sent, refines.got, refines.rest]
  rfl

/-! ## After the close -/

theorem Turn.closed (turn : Turn n t) (closed : n.control s = .closed) :
    t.control s = .closed := by
  cases turn with
  | call call => rw [(call.ep_eq s).2, closed]
  | control governs =>
    rw [governs.others, closed]
    rintro rfl
    exact governs.working closed

theorem Turn.accepted_closed (turn : Turn n t) (law : n.Law) (closed : n.control s = .closed) :
    t.accepted s = n.accepted s := by
  cases turn with
  | call call =>
    have spared := call.spared law.closing (by rw [openFor, closed])
    rw [accepted, accepted, spared.writer, spared.writes]
  | control governs => rw [accepted, accepted, governs.controls.writer, governs.controls.writes]

theorem Turn.reads (turn : Turn n t) (law : n.Law) (listening : (t.ep s).shutRd = false) :
    t.reads s = n.reads s ∨
      ∃ size, 0 < size ∧ t.reads s = n.reads s ++ [(n.ep s).rx.contents.take size] := by
  cases turn with
  | control governs => exact .inl (by rw [governs.controls.reads])
  | call call =>
    cases call with
    | none | begin _ _ _ | stop _ _ | aim _ _ _ | full _ _ | push _ _ _ | finish _ _ _
    | ask _ _ _ => exact .inl rfl
    | @ended s₀ size waiting nothing =>
      by_cases same : s = s₀
      · subst same
        have empty : (n.ep s).rx.contents = [] := by
          rcases nothing with shut | ⟨none, _⟩
          · rw [show (n.ep s).shutRd = false from listening] at shut
            cases shut
          · apply eq_nil_of_length_eq_zero
            rw [Ring.length_contents, none]
        refine .inr ⟨size, law.closing.asked s size waiting, ?_⟩
        rw [reads_got, if_pos rfl, empty, take_nil]
      · exact .inl (by rw [reads_got, if_neg same])
    | @answer s₀ size waiting there =>
      by_cases same : s = s₀
      · subst same
        refine .inr ⟨size, law.closing.asked s size waiting, ?_⟩
        rw [reads_got, if_pos rfl, Ring.pop_fst]
        rfl
      · exact .inl (by rw [reads_got, if_neg same]; rfl)

/-- What a run from a closed side on has read on the other side. -/
structure Drained (n : Session) (s : Side) (t : Session) : Prop where
  law : t.Law
  closed : t.control s = .closed
  accepted : t.accepted s = n.accepted s
  chunks : (t.ep s.other).shutRd = false →
    ∃ chunks, t.reads s.other = n.reads s.other ++ chunks ∧ Drains (n.left s) chunks

theorem Drained.step {u : Session} (drained : Drained n s t)
    (move : t.Step a u) : Drained n s u := by
  have turn := step_turn move
  refine ⟨drained.law.step move, turn.closed drained.closed,
    (turn.accepted_closed drained.law drained.closed).trans drained.accepted, ?_⟩
  intro listening
  have before : (t.ep s.other).shutRd = false := by
    by_contra shut
    rw [(turn.worn s.other).shutRd (by simpa using shut)] at listening
    cases listening
  obtain ⟨chunks, same, drains⟩ := drained.chunks before
  rcases turn.reads drained.law listening with still | ⟨size, positive, more⟩
  · exact ⟨chunks, still.trans same, drains⟩
  refine ⟨chunks ++ [((n.left s).drop chunks.flatten.length).take size], ?_, drains.read positive⟩
  have remaining : t.left s = (n.left s).drop chunks.flatten.length := by
    rw [left, drained.accepted, received, same, flatten_append, length_append,
      ← drop_drop]
    rfl
  rw [more, same, drained.law.contents, remaining, append_assoc]

theorem Law.poll_closed (law : n.Law) (closed : n.control s = .closed) {size : Nat}
    (waiting : n.reader s.other = .waiting size) (listening : (n.ep s.other).shutRd = false) :
    ∃ u, n.step (.poll s.other) = some u ∧ u.reader s.other = .idle ∧
      u.reads s.other = n.reads s.other ++ [(n.left s).take size] := by
  have isOpen : n.openFor s.other = true := by
    by_contra shut
    rw [(law.closing.quiet s.other (by simpa using shut)).2] at waiting
    cases waiting
  have eof : (n.ep s.other).eof = true := by
    apply (law.closing.ended s (by rw [closed]; rfl)).resolve_right
    intro late
    rw [openFor_active] at isOpen
    rw [(linked_facts (linked_of_active isOpen)).1] at late
    cases late
  have idle : ∀ (m : Session) (bytes : List UInt8), (m.got s.other bytes).reader s.other = .idle :=
    fun m bytes => Function.update_self ..
  change ∃ u, n.poll s.other = some u ∧ _
  rw [← law.contents s]
  by_cases there : 0 < (n.ep s.other).rx.len
  · refine ⟨(n.popped s.other size).got s.other ((n.ep s.other).rx.pop size).1, ?_, idle _ _, ?_⟩
    · rw [poll, waiting]
      dsimp only
      rw [if_neg (by rw [listening]; decide), if_pos there]
      rfl
    · rw [reads_got, if_pos rfl, Ring.pop_fst]
      rfl
  · have empty : (n.ep s.other).rx.contents = [] := by
      apply eq_nil_of_length_eq_zero
      rw [Ring.length_contents]
      omega
    refine ⟨n.got s.other [], ?_, idle _ _, ?_⟩
    · rw [poll, waiting]
      dsimp only
      rw [if_neg (by rw [listening]; decide), if_neg there, if_pos eof]
    · rw [reads_got, if_pos rfl, empty, take_nil]

/-- In order, and after a close to the end. `left` is what was accepted and not yet read; a
read that returns nothing has met the end of the file. -/
theorem stream_semantics (reached : Reach (· = Session.start) Step n) (s : Side) :
    n.received s.other <+: n.accepted s ∧ n.accepted s <+: n.handed s ∧
      (n.control s = .closed → ∀ t, Reach (· = n) Step t → (t.ep s.other).shutRd = false →
        t.accepted s = n.accepted s ∧
        (∃ chunks, t.reads s.other = n.reads s.other ++ chunks ∧ Drains (n.left s) chunks) ∧
        ∀ size, t.reader s.other = .waiting size →
          ∃ u, t.step (.poll s.other) = some u ∧ u.reader s.other = .idle ∧
            u.reads s.other = t.reads s.other ++ [(t.left s).take size]) := by
  have law := law_of_reached reached
  obtain ⟨f, refines⟩ := law.stream s
  refine ⟨?_, (law.inOrder s).accepted_first, ?_⟩
  · rw [refines.got, refines.sent]
    exact f.ordered
  · intro closed t later listening
    have drained : Drained n s t := by
      apply later.invariant (Drained n s)
      · rintro _ rfl
        exact ⟨law, closed, rfl, fun _ => ⟨[], (append_nil _).symm, .start _⟩⟩
      · exact fun _ _ _ drained move => drained.step move
    refine ⟨drained.accepted, drained.chunks listening, ?_⟩
    intro size waiting
    exact drained.law.poll_closed drained.closed waiting listening

end Session

end CactKernel.Unix
