import CactKernel.Unix.StreamTurns

/-! # A connection is two streams

In each direction the bytes that the reads returned come first among the bytes that the
writes were given, and once a side is closed the other side reads what is left and then
the end of the file. -/

set_option autoImplicit false

namespace CactKernel.Unix

open Lib Endpoint List Function

namespace Session

variable {n t : Session} {s : Side}

/-- The part of a write in progress that was accepted. -/
def inFlight : Writer → List UInt8
  | .idle => []
  | .top data written => data.take written
  | .fill data written _ => data.take written

/-- What was accepted from the writes of a side. -/
def accepted (n : Session) (s : Side) : List UInt8 :=
  (n.writes s).flatMap (fun call => call.data.take call.accepted) ++ inFlight (n.writer s)

/-- What the writes of a side were given, a write in progress counting what was accepted. -/
def handed (n : Session) (s : Side) : List UInt8 :=
  (n.writes s).flatMap WriteCall.data ++ inFlight (n.writer s)

def received (n : Session) (s : Side) : List UInt8 := (n.reads s).flatten

/-! ## Pointers lead to the other side -/

structure Aimed (n : Session) : Prop where
  peer : ∀ s p, (n.ep s).peer = some p → p = s.other
  target : ∀ s data written p, n.writer s = .fill data written p → p = s.other

theorem Aimed.start : start.Aimed := by
  refine ⟨?_, ?_⟩
  · intro s p there
    exact (Option.some.inj there).symm
  · intro s data written p at_fill
    cases at_fill

theorem writer_setWriter (n : Session) (s s' : Side) (w : Writer) :
    (n.setWriter s w).writer s' = if s' = s then w else n.writer s' :=
  update_apply n.writer s w s'

theorem reads_got (n : Session) (s s' : Side) (bytes : List UInt8) :
    (n.got s bytes).reads s' = if s' = s then n.reads s ++ [bytes] else n.reads s' :=
  update_apply n.reads s _ s'

theorem writes_wrote (n : Session) (s s' : Side) (call : WriteCall) :
    (n.wrote s call).writes s' = if s' = s then n.writes s ++ [call] else n.writes s' :=
  update_apply n.writes s _ s'

theorem writer_wrote (n : Session) (s s' : Side) (call : WriteCall) :
    (n.wrote s call).writer s' = if s' = s then .idle else n.writer s' :=
  writer_setWriter n s s' .idle

theorem Aimed.setWriter (aimed : n.Aimed) {w : Writer}
    (target : ∀ data written p, w = .fill data written p → p = s.other) :
    (n.setWriter s w).Aimed :=
  ⟨aimed.peer, (forall_update_iff n.writer fun s' w => ∀ data written p,
    w = .fill data written p → p = s'.other).mpr ⟨target, fun s' _ => aimed.target s'⟩⟩

theorem Aimed.wrote (aimed : n.Aimed) (s : Side) (call : WriteCall) : (n.wrote s call).Aimed := by
  have idle : (n.setWriter s .idle).Aimed := aimed.setWriter fun _ _ _ absurd => nomatch absurd
  exact ⟨idle.peer, idle.target⟩

theorem Aimed.setRx (aimed : n.Aimed) (rx : Ring UInt8 unixBufSize) :
    (n.setEp s { n.ep s with rx := rx }).Aimed :=
  ⟨(forall_update_iff n.ep fun s' e => ∀ p, e.peer = some p → p = s'.other).mpr
    ⟨aimed.peer s, fun s' _ => aimed.peer s'⟩, aimed.target⟩

theorem Call.aimed (call : Call n t) (aimed : n.Aimed) : t.Aimed := by
  cases call with
  | none => exact aimed
  | begin _ _ _ | full _ _ => exact aimed.setWriter fun _ _ _ absurd => nomatch absurd
  | stop result stops => exact aimed.wrote _ _
  | @aim s data written peer at_top going there =>
    refine aimed.setWriter ?_
    intro data' written' p same
    obtain ⟨_, _, rfl⟩ := Writer.fill.inj same
    exact aimed.peer s _ there
  | push _ _ _ => exact (aimed.setRx _).setWriter fun _ _ _ absurd => nomatch absurd
  | finish _ _ _ => exact (aimed.setRx _).wrote _ _
  | ask _ _ _ | ended _ _ => exact ⟨aimed.peer, aimed.target⟩
  | answer _ _ => exact ⟨(aimed.setRx _).peer, aimed.target⟩

theorem Controls.aimed (c : Controls n t) (aimed : n.Aimed) : t.Aimed := by
  refine ⟨?_, ?_⟩
  · intro s p there
    rcases (c.worn s).1.peer with same | gone
    · exact aimed.peer s p (same ▸ there)
    · rw [gone] at there
      cases there
  · rw [c.writer]
    exact aimed.target

theorem Turn.aimed (turn : Turn n t) (aimed : n.Aimed) : t.Aimed := by
  cases turn with
  | call call => exact call.aimed aimed
  | control governs => exact governs.controls.aimed aimed

/-! ## Refinement -/

/-- One direction of the connection is the stream `f`. -/
structure Refines (n : Session) (s : Side) (f : Fifo UInt8) : Prop where
  sent : n.accepted s = f.sent
  got : n.received s.other = f.got
  rest : (n.ep s.other).rx.contents = f.rest

theorem Refines.start (s : Side) : start.Refines s ⟨[], [], List.prefix_refl _⟩ :=
  ⟨rfl, rfl, rfl⟩

variable {f : Fifo UInt8} {data : List UInt8} {written : Nat}

theorem Refines.same (r : n.Refines s f) (sent : t.accepted s = n.accepted s)
    (got : t.received s.other = n.received s.other)
    (rest : (t.ep s.other).rx.contents = (n.ep s.other).rx.contents) :
    ∃ g, Fifo.Move f g ∧ t.Refines s g :=
  ⟨f, .stay f, sent.trans r.sent, got.trans r.got, rest.trans r.rest⟩

theorem accepted_setWriter (n : Session) (s s' : Side) (w : Writer) (still : inFlight w =
    inFlight (n.writer s)) : (n.setWriter s w).accepted s' = n.accepted s' := by
  rw [accepted, accepted, writer_setWriter]
  by_cases same : s' = s
  · rw [if_pos same, still, same]
    rfl
  · rw [if_neg same]
    rfl

theorem accepted_wrote (n : Session) (s s' : Side) (call : WriteCall)
    (still : call.data.take call.accepted = inFlight (n.writer s)) :
    (n.wrote s call).accepted s' = n.accepted s' := by
  rw [accepted, accepted, writer_wrote, writes_wrote]
  by_cases same : s' = s
  · subst same
    rw [if_pos rfl, if_pos rfl, flatMap_append, flatMap_singleton, still, inFlight,
      append_nil]
  · rw [if_neg same, if_neg same]

theorem take_chunk (n : Session) (p : Side) (data : List UInt8) (written : Nat) :
    data.take (written + n.chunk p data written) =
      data.take written ++ (data.drop written).take (unixBufSize - (n.ep p).rx.len) := by
  rw [take_add, chunk]
  congr 1
  rw [← length_drop, take_eq_take_min, Nat.min_assoc, Nat.min_comm _ (length _),
    ← Nat.min_assoc, Nat.min_self, Nat.min_comm, ← take_eq_take_min]

theorem contents_pushed (n : Session) (p s : Side) (data : List UInt8) (written : Nat) :
    ((n.pushed p data written).ep s).rx.contents =
      if s = p then (n.ep p).rx.contents ++
        (data.drop written).take (unixBufSize - (n.ep p).rx.len)
      else (n.ep s).rx.contents := by
  rw [pushed, ep_setEp]
  split
  · exact Ring.contents_pushAll _ _ _
  · rfl

theorem Refines.push {s₀ p : Side} (aimed : n.Aimed)
    (at_fill : n.writer s₀ = .fill data written p)
    (writes : ∀ s', s' ≠ s₀ → t.accepted s' = n.accepted s')
    (longer : t.accepted s₀ = n.accepted s₀ ++
      (data.drop written).take (unixBufSize - (n.ep p).rx.len))
    (reads : t.reads = n.reads) (ep : t.ep = (n.pushed p data written).ep) (r : n.Refines s f) :
    ∃ g, Fifo.Move f g ∧ t.Refines s g := by
  obtain rfl : p = s₀.other := aimed.target _ _ _ _ at_fill
  have got : t.received s.other = n.received s.other := by rw [received, reads, received]
  by_cases same : s = s₀
  · subst same
    refine ⟨f.accept _, .accept f _, longer.trans (by rw [r.sent]; rfl), got.trans r.got, ?_⟩
    rw [ep, contents_pushed, if_pos rfl, Fifo.rest_accept, r.rest]
  · apply r.same (writes s same) got
    rw [ep, contents_pushed, if_neg]
    intro absurd
    apply same
    rw [← s.other_other, absurd, s₀.other_other]

theorem Call.refines (call : Call n t) (aimed : n.Aimed) (r : n.Refines s f) :
    ∃ g, Fifo.Move f g ∧ t.Refines s g := by
  cases call with
  | none | ask isOpen idle positive => exact r.same rfl rfl rfl
  | begin isOpen idle nonempty =>
    exact r.same (accepted_setWriter n _ s _ (by rw [idle]; rfl)) rfl rfl
  | stop result stops =>
    cases stops with
    | top at_top gone => exact r.same (accepted_wrote n _ s _ (by rw [at_top]; rfl)) rfl rfl
    | fill at_fill deaf => exact r.same (accepted_wrote n _ s _ (by rw [at_fill]; rfl)) rfl rfl
  | aim at_top going there =>
    exact r.same (accepted_setWriter n _ s _ (by rw [at_top]; rfl)) rfl rfl
  | full at_fill hears => exact r.same (accepted_setWriter n _ s _ (by rw [at_fill]; rfl)) rfl rfl
  | @push s₀ data written peer at_fill hears more =>
    refine r.push aimed at_fill ?_ ?_ rfl rfl
    · intro s' differ
      rw [accepted, writer_setWriter, if_neg differ]
      rfl
    · rw [accepted, writer_setWriter, if_pos rfl, inFlight, take_chunk, accepted, at_fill,
        inFlight, ← append_assoc]
      rfl
  | @finish s₀ data written peer at_fill hears all =>
    refine r.push aimed at_fill ?_ ?_ rfl rfl
    · intro s' differ
      rw [accepted, writer_wrote, writes_wrote, if_neg differ, if_neg differ]
      rfl
    · rw [accepted, writer_wrote, writes_wrote, if_pos rfl, if_pos rfl, flatMap_append,
        flatMap_singleton, take_chunk, accepted, at_fill, inFlight, inFlight,
        append_nil, ← append_assoc]
      rfl
  | @ended s₀ size waiting nothing =>
    refine r.same rfl ?_ rfl
    rw [received, reads_got]
    by_cases same : s.other = s₀
    · rw [if_pos same, flatten_append, flatten_singleton, append_nil, received, same]
    · rw [if_neg same, received]
  | @answer s₀ size waiting there =>
    by_cases same : s.other = s₀
    · subst same
      refine ⟨f.deliver size, .deliver f size, r.sent, ?_, ?_⟩
      · rw [received, reads_got, if_pos rfl, flatten_append, flatten_singleton,
          Ring.pop_fst, r.rest]
        change n.received s.other ++ _ = _
        rw [r.got]
        rfl
      · change (((n.popped s.other size).ep s.other).rx.contents) = _
        rw [popped, ep_setEp, if_pos rfl, Ring.contents_pop, r.rest, Fifo.rest_deliver]
    · refine r.same rfl ?_ ?_
      · rw [received, reads_got, if_neg same]
        rfl
      · change (((n.popped s₀ size).ep s.other).rx.contents) = _
        rw [popped, ep_setEp, if_neg same]

theorem Turn.refines (turn : Turn n t) (aimed : n.Aimed) (r : n.Refines s f) :
    ∃ g, Fifo.Move f g ∧ t.Refines s g := by
  cases turn with
  | call call => exact call.refines aimed r
  | control governs =>
    have c := governs.controls
    apply r.same
    · rw [accepted, accepted, c.writes, c.writer]
    · rw [received, received, c.reads]
    · rw [(c.worn s.other).2]

/-! ## Writes that stop -/

theorem Call.ep_eq (call : Call n t) (s : Side) :
    t.ep s = { n.ep s with rx := (t.ep s).rx } ∧ t.control = n.control := by
  have setRx : ∀ (p : Side) (rx : Ring UInt8 unixBufSize),
      (n.setEp p { n.ep p with rx := rx }).ep s =
        { n.ep s with rx := ((n.setEp p { n.ep p with rx := rx }).ep s).rx } := by
    intro p rx
    rw [ep_setEp]
    split
    · rename_i same
      rw [same]
    · rfl
  cases call with
  | none | begin _ _ _ | stop _ _ | aim _ _ _ | full _ _ | ask _ _ _ | ended _ _ => exact ⟨rfl, rfl⟩
  | push _ _ _ | finish _ _ _ | answer _ _ => exact ⟨setRx _ _, rfl⟩

theorem Call.worn (call : Call n t) (s : Side) : Worn (n.ep s) (t.ep s) := by
  rw [(call.ep_eq s).1]
  exact ⟨id, id, id, id, id, .inl rfl⟩

theorem Turn.worn (turn : Turn n t) (s : Side) : Worn (n.ep s) (t.ep s) := by
  cases turn with
  | call call => exact call.worn s
  | control governs => exact (governs.controls.worn s).1

/-- The writes of a side cannot go on: the next one stops without a byte. -/
def Halted (n : Session) (s : Side) : Prop :=
  match n.writer s with
  | .fill _ _ peer => (n.ep peer).deaf = true
  | _ => (n.ep s).shutWr = true ∨ (n.ep s).peer = none ∨ (n.ep s.other).deaf = true

theorem Halted.worn (halted : n.Halted s) (writer : t.writer s = n.writer s)
    (worn : ∀ s, Worn (n.ep s) (t.ep s)) : t.Halted s := by
  have idle : ((n.ep s).shutWr = true ∨ (n.ep s).peer = none ∨ (n.ep s.other).deaf = true) →
      (t.ep s).shutWr = true ∨ (t.ep s).peer = none ∨ (t.ep s.other).deaf = true := by
    rintro (shut | gone | deaf)
    · exact .inl ((worn s).shutWr shut)
    · refine .inr (.inl ?_)
      rcases (worn s).peer with same | gone
      · rw [same]
        assumption
      · exact gone
    · exact .inr (.inr ((worn s.other).deaf deaf))
  rw [Halted] at halted ⊢
  rw [writer]
  cases at_ : n.writer s with
  | idle | top data written => exact idle (by rw [at_] at halted; exact halted)
  | fill data written peer =>
    rw [at_] at halted
    exact (worn peer).deaf halted

/-- Until the first write that falls short everything was accepted, and nothing after it. -/
def InOrder (n : Session) (s : Side) : Prop :=
  (∀ call ∈ n.writes s, call.accepted = call.data.length) ∨
    (n.Halted s ∧ inFlight (n.writer s) = [] ∧ n.accepted s <+: n.handed s)

theorem accepted_eq_handed (complete : ∀ call ∈ n.writes s, call.accepted = call.data.length) :
    n.accepted s = n.handed s := by
  rw [accepted, handed, flatMap_def, flatMap_def]
  congr 2
  apply map_congr_left
  intro call member
  rw [complete call member, take_length]

theorem InOrder.accepted_first (inOrder : n.InOrder s) : n.accepted s <+: n.handed s := by
  rcases inOrder with complete | ⟨_, _, ordered⟩
  · exact ⟨[], by rw [append_nil, accepted_eq_handed complete]⟩
  · exact ordered

theorem InOrder.keep (inOrder : n.InOrder s) (writer : t.writer s = n.writer s)
    (writes : t.writes s = n.writes s) (worn : ∀ s, Worn (n.ep s) (t.ep s)) : t.InOrder s := by
  rcases inOrder with complete | ⟨halted, still, ordered⟩
  · refine .inl ?_
    rw [writes]
    exact complete
  · refine .inr ⟨halted.worn writer worn, by rw [writer]; exact still, ?_⟩
    rw [accepted, handed, writer, writes]
    exact ordered

theorem InOrder.setWriter {w : Writer} (inOrder : n.InOrder s)
    (still : inFlight w = inFlight (n.writer s))
    (halted : n.Halted s → (n.setWriter s w).Halted s) : (n.setWriter s w).InOrder s := by
  rcases inOrder with complete | ⟨stopped, nothing, ordered⟩
  · exact .inl complete
  have there : (n.setWriter s w).writer s = w := by rw [writer_setWriter, if_pos rfl]
  refine .inr ⟨halted stopped, by rw [there, still, nothing], ?_⟩
  rw [accepted, handed, there, still]
  exact ordered

theorem Stops.inFlight (stops : n.Stops s data written) :
    inFlight (n.writer s) = data.take written := by
  cases stops with
  | top at_top _ => rw [at_top]; rfl
  | fill at_fill _ => rw [at_fill]; rfl

theorem Stops.inOrder (aimed : n.Aimed) (stops : n.Stops s data written) (inOrder : n.InOrder s)
    (result : Int) : (n.wrote s ⟨data, written, result⟩).InOrder s := by
  have idle : (n.wrote s ⟨data, written, result⟩).writer s = .idle := by
    rw [writer_wrote, if_pos rfl]
  have halted : (n.wrote s ⟨data, written, result⟩).Halted s := by
    rw [Halted, idle]
    cases stops with
    | top _ gone => exact gone.elim .inl fun none => .inr (.inl none)
    | fill at_fill deaf =>
      rw [aimed.target _ _ _ _ at_fill] at deaf
      exact .inr (.inr deaf)
  have still := stops.inFlight
  refine .inr ⟨halted, by rw [idle]; rfl, ?_⟩
  have same := accepted_wrote n s s ⟨data, written, result⟩ still.symm
  rw [same, handed, idle, writes_wrote, if_pos rfl, flatMap_append, flatMap_singleton,
    Session.inFlight, append_nil]
  rcases inOrder with complete | ⟨_, nothing, ordered⟩
  · rw [accepted_eq_handed complete, handed, still]
    exact (prefix_append_right_inj _).mpr ( take_prefix _ _)
  · rw [handed, nothing, append_nil] at ordered
    exact ordered.trans (prefix_append _ _)

theorem InOrder.complete {peer : Side} (inOrder : n.InOrder s)
    (at_fill : n.writer s = .fill data written peer) (hears : (n.ep peer).deaf = false) :
    ∀ call ∈ n.writes s, call.accepted = call.data.length := by
  rcases inOrder with complete | ⟨halted, _, _⟩
  · exact complete
  rw [Halted, at_fill] at halted
  rw [show (n.ep peer).deaf = true from halted] at hears
  cases hears

theorem Call.inOrder (call : Call n t) (aimed : n.Aimed) (inOrder : n.InOrder s) :
    t.InOrder s := by
  have worn := call.worn
  cases call with
  | none => exact inOrder
  | @begin s₀ data isOpen idle nonempty =>
    by_cases same : s = s₀
    · subst same
      refine inOrder.setWriter (by rw [idle]; rfl) ?_
      intro halted
      rw [Halted, idle] at halted
      rw [Halted, writer_setWriter, if_pos rfl]
      exact halted
    · exact inOrder.keep (by rw [writer_setWriter, if_neg same]) rfl worn
  | @stop s₀ data written result stops =>
    by_cases same : s = s₀
    · subst same
      exact stops.inOrder aimed inOrder result
    · exact inOrder.keep (by rw [writer_wrote, if_neg same])
        (by rw [writes_wrote, if_neg same]) worn
  | @aim s₀ data written peer at_top going there =>
    by_cases same : s = s₀
    · subst same
      refine inOrder.setWriter (by rw [at_top]; rfl) ?_
      intro halted
      rw [Halted, at_top] at halted
      rw [Halted, writer_setWriter, if_pos rfl]
      rcases halted with shut | gone | deaf
      · rw [going] at shut
        cases shut
      · rw [there] at gone
        cases gone
      · rw [← aimed.peer s peer there] at deaf
        exact deaf
    · exact inOrder.keep (by rw [writer_setWriter, if_neg same]) rfl worn
  | @full s₀ data written peer at_fill hears =>
    by_cases same : s = s₀
    · subst same
      exact .inl (inOrder.complete at_fill hears)
    · exact inOrder.keep (by rw [writer_setWriter, if_neg same]) rfl worn
  | @push s₀ data written peer at_fill hears more =>
    by_cases same : s = s₀
    · subst same
      exact .inl (inOrder.complete at_fill hears)
    · exact inOrder.keep (by rw [writer_setWriter, if_neg same]; rfl) rfl worn
  | @finish s₀ data written peer at_fill hears all =>
    by_cases same : s = s₀
    · subst same
      refine .inl ?_
      intro call member
      rw [writes_wrote, if_pos rfl] at member
      rcases mem_append.mp member with before | last
      · exact inOrder.complete at_fill hears call before
      · rw [mem_singleton.mp last]
        exact all
    · exact inOrder.keep (by rw [writer_wrote, if_neg same]; rfl)
        (by rw [writes_wrote, if_neg same]; rfl) worn
  | ask isOpen idle positive | ended waiting nothing
  | answer waiting there => exact inOrder.keep rfl rfl worn

theorem Turn.inOrder (turn : Turn n t) (aimed : n.Aimed) (inOrder : n.InOrder s) :
    t.InOrder s := by
  have worn := turn.worn
  cases turn with
  | call call => exact call.inOrder aimed inOrder
  | control governs =>
    exact inOrder.keep (by rw [governs.controls.writer]) (by rw [governs.controls.writes]) worn

end Session

end CactKernel.Unix
