import CactKernel.Unix.StreamLaws

/-! # The end of a stream

A side that is being closed has no call in progress, and the other side, as long as it
is open, finds its end-of-file flag set; so its reads return what is left, and then
nothing. -/

set_option autoImplicit false

namespace CactKernel.Unix

open Lib Endpoint Option Function

/-- The link is broken on this side. -/
def Control.leaving : Control → Bool
  | .parted _ _ | .putting | .closed => true
  | _ => false

/-- The link is broken on both sides. -/
def Control.late : Control → Bool
  | .putting | .closed => true
  | _ => false

/-- Neither closed nor being closed. -/
def Control.active : Control → Bool
  | .ready | .noRead _ _ | .shutWr | .noWrite _ => true
  | _ => false

namespace Session

variable {n t : Session} {s : Side}

structure Closing (n : Session) : Prop where
  quiet : ∀ s, n.openFor s = false → n.writer s = .idle ∧ n.reader s = .idle
  asked : ∀ s size, n.reader s = .waiting size → 0 < size
  peerless : ∀ s, (n.ep s).peer = none →
    (n.control s).leaving = true ∨ (n.control s.other).late = true
  freed : ∀ s, (n.ep s).used = false →
    (n.control s).late = true ∨ (n.control s.other).late = true
  alone : ∀ s dead, n.control s = .parted none dead → (n.control s.other).late = true
  parted : ∀ s p dead, n.control s = .parted (some p) dead → p = s.other
  ended : ∀ s, (n.control s).late = true →
    (n.ep s.other).eof = true ∨ (n.control s.other).late = true

theorem Closing.start : start.Closing where
  quiet := fun _ absurd => nomatch absurd
  asked := fun _ _ absurd => nomatch absurd
  peerless := fun _ absurd => nomatch absurd
  freed := fun _ absurd => nomatch absurd
  alone := fun _ _ absurd => nomatch absurd
  parted := fun _ _ _ absurd => nomatch absurd
  ended := fun _ absurd => nomatch absurd

/-! ## Reads and writes -/

theorem openFor_congr (same : t.control s = n.control s) : t.openFor s = n.openFor s := by
  rw [openFor, openFor, same]

/-- The side `s` is as before to its own tasks. -/
structure Spared (n t : Session) (s : Side) : Prop where
  writer : t.writer s = n.writer s
  reader : t.reader s = n.reader s
  writes : t.writes s = n.writes s
  reads : t.reads s = n.reads s

theorem Call.acting (call : Call n t) : t = n ∨ ∃ s₀,
    (n.openFor s₀ = true ∨ n.writer s₀ ≠ .idle ∨ n.reader s₀ ≠ .idle) ∧
      ∀ s, s ≠ s₀ → Spared n t s := by
  have spared : ∀ {s₀ s : Side} {α : Type} (f : Side → α) (x : α), s ≠ s₀ →
      update f s₀ x s = f s := fun f x other => update_of_ne other x f
  have busy : ∀ {s₀ : Side} {w : Writer}, n.writer s₀ = w → w ≠ .idle → n.writer s₀ ≠ .idle :=
    fun same idle => same ▸ idle
  cases call with
  | none => exact .inl rfl
  | @begin s₀ data isOpen idle nonempty =>
    exact .inr ⟨s₀, .inl isOpen, fun s other => ⟨spared _ _ other, rfl, rfl, rfl⟩⟩
  | @stop s₀ data written result stops =>
    have acting : n.writer s₀ ≠ .idle := by
      cases stops with
      | top at_top _ => exact busy at_top nofun
      | fill at_fill _ => exact busy at_fill nofun
    exact .inr ⟨s₀, .inr (.inl acting), fun s other =>
      ⟨spared _ _ other, rfl, spared _ _ other, rfl⟩⟩
  | @aim s₀ data written peer at_top going there =>
    exact .inr ⟨s₀, .inr (.inl (busy at_top nofun)), fun s other =>
      ⟨spared _ _ other, rfl, rfl, rfl⟩⟩
  | @full s₀ data written peer at_fill hears | @push s₀ data written peer at_fill hears more =>
    exact .inr ⟨s₀, .inr (.inl (busy at_fill nofun)), fun s other =>
      ⟨spared _ _ other, rfl, rfl, rfl⟩⟩
  | @finish s₀ data written peer at_fill hears all =>
    exact .inr ⟨s₀, .inr (.inl (busy at_fill nofun)), fun s other =>
      ⟨spared _ _ other, rfl, spared _ _ other, rfl⟩⟩
  | @ask s₀ size isOpen idle positive =>
    exact .inr ⟨s₀, .inl isOpen, fun s other => ⟨rfl, spared _ _ other, rfl, rfl⟩⟩
  | @ended s₀ size waiting nothing | @answer s₀ size waiting there =>
    have acting : n.reader s₀ ≠ .idle := by
      rw [waiting]
      nofun
    exact .inr ⟨s₀, .inr (.inr acting), fun s other =>
      ⟨rfl, spared _ _ other, rfl, spared _ _ other⟩⟩

theorem Call.spared (call : Call n t) (closing : n.Closing) (shut : n.openFor s = false) :
    Spared n t s := by
  obtain ⟨writer, reader⟩ := closing.quiet s shut
  rcases call.acting with rfl | ⟨s₀, acting, spared⟩
  · exact ⟨rfl, rfl, rfl, rfl⟩
  apply spared
  rintro rfl
  rcases acting with isOpen | busy | busy
  · rw [shut] at isOpen
    cases isOpen
  · exact busy writer
  · exact busy reader

theorem Call.asked (call : Call n t) (asked : ∀ s size, n.reader s = .waiting size → 0 < size) :
    ∀ s size, t.reader s = .waiting size → 0 < size := by
  have keeps : ∀ {s₀ : Side} {x : Reader}, (∀ size, x = .waiting size → 0 < size) →
      ∀ s size, (n.setReader s₀ x).reader s = .waiting size → 0 < size :=
    fun good => (forall_update_iff n.reader fun _ x => ∀ size, x = .waiting size → 0 < size).mpr
      ⟨good, fun s _ => asked s⟩
  cases call with
  | none | begin _ _ _ | stop _ _ | aim _ _ _ | full _ _ | push _ _ _ | finish _ _ _ => exact asked
  | ask isOpen idle positive => exact keeps fun size same => Reader.waiting.inj same ▸ positive
  | ended _ _ | answer _ _ => exact keeps nofun

/-! ## Control -/

variable {x : Control}

theorem linked_facts (linked : x.leaving = false) :
    x.late = false ∧ ∀ p dead, x ≠ .parted p dead := by
  constructor
  · cases x <;> first | rfl | cases linked
  · rintro p dead rfl
    cases linked

theorem linked_of_active (active : x.active = true) : x.leaving = false := by
  cases x <;> first | rfl | cases active

theorem openFor_active (n : Session) (s : Side) : n.openFor s = (n.control s).active := by
  rw [openFor]
  cases n.control s <;> rfl

theorem Closing.steady (closing : n.Closing)
    (quiet : ∀ s, t.openFor s = false → t.writer s = .idle ∧ t.reader s = .idle)
    (asked : ∀ s size, t.reader s = .waiting size → 0 < size)
    (ep : ∀ s, (t.ep s).peer = (n.ep s).peer ∧ (t.ep s).used = (n.ep s).used ∧
      ((n.ep s).eof = true → (t.ep s).eof = true))
    (control : ∀ s, t.control s = n.control s ∨
      (t.control s).leaving = false ∧ (n.control s).leaving = false) : t.Closing := by
  have late : ∀ s, (t.control s).late = (n.control s).late := by
    intro s
    rcases control s with same | ⟨after, before⟩
    · rw [same]
    · rw [(linked_facts after).1, (linked_facts before).1]
  have leaving : ∀ s, (t.control s).leaving = (n.control s).leaving := by
    intro s
    rcases control s with same | ⟨after, before⟩
    · rw [same]
    · rw [after, before]
  have parted : ∀ s p dead, t.control s = .parted p dead → n.control s = .parted p dead := by
    intro s p dead there
    rcases control s with same | ⟨after, _⟩
    · rw [← same, there]
    · exact absurd there ((linked_facts after).2 p dead)
  refine ⟨quiet, asked, ?_, ?_, ?_, ?_, ?_⟩
  · intro s peerless
    rw [leaving, late]
    exact closing.peerless s ((ep s).1 ▸ peerless)
  · intro s freed
    rw [late, late]
    exact closing.freed s ((ep s).2.1 ▸ freed)
  · intro s dead there
    rw [late]
    exact closing.alone s dead (parted s _ _ there)
  · intro s p dead there
    exact closing.parted s p dead (parted s _ _ there)
  · intro s there
    rw [late] at there ⊢
    exact (closing.ended s there).imp_left (ep s.other).2.2

theorem Call.closing (call : Call n t) (closing : n.Closing) : t.Closing := by
  have control := (call.ep_eq .left).2
  apply closing.steady
  · intro s shut
    rw [openFor_congr (congrFun control s)] at shut
    have spared := call.spared closing shut
    rw [spared.writer, spared.reader]
    exact closing.quiet s shut
  · exact call.asked closing.asked
  · intro s
    rw [(call.ep_eq s).1]
    exact ⟨rfl, rfl, id⟩
  · intro s
    exact .inl (congrFun control s)

theorem Closing.flags (closing : n.Closing) {m : Session} (controls : Controls n m)
    (ep : ∀ s, (m.ep s).peer = (n.ep s).peer ∧ (m.ep s).used = (n.ep s).used)
    (control : m.control = n.control) (before : (n.control s).active = true)
    (after : x.active = true) : (m.setControl s x).Closing := by
  have there : ∀ s', (m.setControl s x).control s' = n.control s' ∨
      ((m.setControl s x).control s').active = true ∧ (n.control s').active = true := by
    intro s'
    rw [control_setControl, control]
    by_cases same : s' = s
    · subst same
      rw [if_pos rfl]
      exact .inr ⟨after, before⟩
    · rw [if_neg same]
      exact .inl rfl
  apply closing.steady
  · intro s' shut
    change m.writer s' = .idle ∧ m.reader s' = .idle
    rw [controls.writer, controls.reader]
    apply closing.quiet
    rw [openFor_active] at shut ⊢
    rcases there s' with same | ⟨active, _⟩
    · rw [← same]
      exact shut
    · rw [active] at shut
      cases shut
  · change ∀ s size, m.reader s = .waiting size → 0 < size
    rw [controls.reader]
    exact closing.asked
  · exact fun s' => ⟨(ep s').1, (ep s').2, (controls.worn s').1.eof⟩
  · exact fun s' => (there s').imp_right fun active =>
      ⟨linked_of_active active.1, linked_of_active active.2⟩

theorem Closing.settled (closing : n.Closing) {m : Session} (controls : Controls n m)
    (control : m.control = n.control) (late : x.late = true)
    (quiet : n.writer s = .idle ∧ n.reader s = .idle)
    (ended : (m.ep s.other).eof = true ∨ (n.control s.other).late = true) :
    (m.setControl s x).Closing := by
  have here : (m.setControl s x).control s = x := by rw [control_setControl, if_pos rfl]
  have there : (m.setControl s x).control s.other = n.control s.other := by
    rw [control_setControl, if_neg s.other_ne, control]
  have either : ∀ s', (((m.setControl s x).control s').late = true) ∨
      ((m.setControl s x).control s'.other).late = true :=
    Side.both (.inl (here ▸ late)) (.inr (by rw [s.other_other, here]; exact late))
  have leaves : ∀ {y : Control}, y.late = true → y.leaving = true := by
    intro y late
    cases y <;> first | rfl | cases late
  refine ⟨?_, ?_, ?_, fun s' _ => either s', ?_, ?_, ?_⟩
  · change ∀ s', _ → m.writer s' = .idle ∧ m.reader s' = .idle
    rw [controls.writer, controls.reader]
    exact Side.both (fun _ => quiet) fun shut => closing.quiet _ (openFor_congr there ▸ shut)
  · change ∀ s size, m.reader s = .waiting size → 0 < size
    rw [controls.reader]
    exact closing.asked
  · intro s' _
    exact (either s').imp_left leaves
  · intro s' dead parted
    rcases either s' with here | there
    · rw [parted] at here
      cases here
    · exact there
  · refine Side.both (fun p dead parted => ?_) (there ▸ closing.parted s.other)
    rw [← here, parted] at late
    cases late
  · refine Side.both (fun _ => there ▸ ended) fun _ => .inr ?_
    rw [s.other_other, here]
    exact late

theorem links_setEp {e : Endpoint Side Empty} (peer : e.peer = (n.ep s).peer)
    (used : e.used = (n.ep s).used) (s' : Side) : ((n.setEp s e).ep s').peer = (n.ep s').peer ∧
      ((n.setEp s e).ep s').used = (n.ep s').used := by
  rw [ep_setEp]
  split
  · rename_i same
    rw [same]
    exact ⟨peer, used⟩
  · exact ⟨rfl, rfl⟩

theorem shutdown_closing {how : Shutdown} (run : n.shutdown s how = some t) (closing : n.Closing) :
    t.Closing := by
  simp only [shutdown] at run
  split at run
  · rename_i ready
    have active : (n.control s).active = true := by rw [ready]; rfl
    cases how with
    | rd | rdwr =>
      exact some.inj run ▸
        closing.flags (Controls.setShutRd n s) (links_setEp rfl rfl) rfl active rfl
    | wr =>
      exact some.inj run ▸
        closing.flags (Controls.setShutWr n s) (links_setEp rfl rfl) rfl active rfl
  · cases run

theorem close_closing (run : n.close s = some t) (closing : n.Closing) : t.Closing := by
  obtain ⟨ready, writer, reader, result⟩ := close_cases run
  have not_late : ¬ (n.control s).late = true := by
    rw [ready]
    nofun
  have not_leaving : ¬ (n.control s).leaving = true := by
    rw [ready]
    nofun
  rcases result with ⟨unused, rfl⟩ | ⟨_, rfl⟩ | ⟨gone, rfl⟩
  · apply closing.settled (.refl n) rfl rfl ⟨writer, reader⟩
    exact .inr ((closing.freed s unused).resolve_left not_late)
  · apply closing.steady
    · intro s' shut
      by_cases same : s' = s
      · rw [same]
        exact ⟨writer, reader⟩
      apply closing.quiet s'
      rw [openFor, control_setControl, if_neg same] at shut
      exact shut
    · exact closing.asked
    · exact fun s' => ⟨rfl, rfl, id⟩
    · intro s'
      rw [control_setControl]
      by_cases same : s' = s
      · rw [if_pos same, same, ready]
        exact .inr ⟨rfl, rfl⟩
      · rw [if_neg same]
        exact .inl rfl
  · apply closing.settled (.refl n) rfl rfl ⟨writer, reader⟩
    exact .inr ((closing.peerless s gone).resolve_left not_leaving)

theorem Closing.parting (closing : n.Closing) (aimed : n.Aimed)
    (breaking : n.control s = .breaking) :
    ((n.setEp s (n.ep s).part).setControl s
      (.parted (n.ep s).peer ((n.ep s).part.refs = 0))).Closing := by
  have not_leaving : ¬ (n.control s).leaving = true := by
    rw [breaking]
    nofun
  have flags : (n.ep s).part.used = (n.ep s).used ∧ (n.ep s).part.eof = (n.ep s).eof := by
    rw [Endpoint.part]
    split
    · exact ⟨rfl, rfl⟩
    · exact ⟨rfl, rfl⟩
  generalize result : (n.setEp s (n.ep s).part).setControl s
    (.parted (n.ep s).peer ((n.ep s).part.refs = 0)) = t
  have tasks : t.writer = n.writer ∧ t.reader = n.reader := by rw [← result]; exact ⟨rfl, rfl⟩
  have here : t.control s = .parted (n.ep s).peer ((n.ep s).part.refs = 0) := by
    rw [← result, control_setControl, if_pos rfl]
  have there : t.control s.other = n.control s.other := by
    rw [← result, control_setControl, if_neg s.other_ne]
    rfl
  have ep_here : t.ep s = (n.ep s).part := by
    rw [← result]
    exact update_self ..
  have ep_there : t.ep s.other = n.ep s.other := by
    rw [← result]
    exact update_of_ne s.other_ne ..
  have late : ∀ s', (t.control s').late = (n.control s').late :=
    Side.both (by rw [here, breaking]; rfl) (by rw [there])
  have used : ∀ s', (t.ep s').used = (n.ep s').used :=
    Side.both (by rw [ep_here, flags.1]) (by rw [ep_there])
  have eof : ∀ s', (t.ep s').eof = (n.ep s').eof :=
    Side.both (by rw [ep_here, flags.2]) (by rw [ep_there])
  refine ⟨?_, tasks.2 ▸ closing.asked, ?_, ?_, ?_, ?_, ?_⟩
  · rw [tasks.1, tasks.2]
    refine Side.both (fun _ => closing.quiet s ?_) fun shut => closing.quiet _ ?_
    · rw [openFor, breaking]
    · exact openFor_congr there ▸ shut
  · refine Side.both (fun _ => .inl (by rw [here]; rfl)) fun peerless => ?_
    rw [ep_there] at peerless
    rw [there, late]
    exact closing.peerless _ peerless
  · intro s' freed
    rw [late, late]
    exact closing.freed s' (used s' ▸ freed)
  · simp only [late]
    refine Side.both (fun dead parted => ?_) (there ▸ closing.alone s.other)
    rw [here] at parted
    exact (closing.peerless _ (Control.parted.inj parted).1).resolve_left not_leaving
  · refine Side.both (fun p dead parted => ?_) (there ▸ closing.parted s.other)
    rw [here] at parted
    exact aimed.peer _ p (Control.parted.inj parted).1
  · intro s' after
    rw [late] at after ⊢
    rw [eof]
    exact closing.ended s' after

theorem part_eof (n : Session) (s p : Side) (dead : Bool) :
    ((n.part s (some p) dead).ep p).eof = true := by
  have orphaned : ((n.setEp p (n.ep p).orphan).ep p).eof = true := by
    rw [ep_setEp, if_pos rfl]
    rfl
  have later := ((Controls.refl (n.setEp p (n.ep p).orphan)).destroyIf dead s).destroyIf
    (((n.setEp p (n.ep p).orphan).ep p).refs = 0) p
  exact (later.worn p).1.eof orphaned

theorem proceed_closing (run : n.proceed s = some t) (aimed : n.Aimed) (closing : n.Closing) :
    t.Closing := by
  rw [proceed] at run
  split at run
  · rename_i peer wr at_
    have active : (n.control s).active = true := by rw [at_]; rfl
    have next : (if wr then Control.shutWr else .ready).active = true := by cases wr <;> rfl
    cases peer with
    | none =>
      exact some.inj run ▸ closing.flags (.refl n) (fun _ => ⟨rfl, rfl⟩) rfl active next
    | some peer =>
      exact some.inj run ▸
        closing.flags (Controls.setPeerNoRead n peer) (links_setEp rfl rfl) rfl active next
  · rename_i at_
    have active : (n.control s).active = true := by rw [at_]; rfl
    exact some.inj run ▸
      closing.flags (Controls.setShutWr n s) (links_setEp rfl rfl) rfl active rfl
  · rename_i peer at_
    have active : (n.control s).active = true := by rw [at_]; rfl
    cases peer with
    | none =>
      exact some.inj run ▸ closing.flags (.refl n) (fun _ => ⟨rfl, rfl⟩) rfl active rfl
    | some peer =>
      exact some.inj run ▸
        closing.flags (Controls.setEof n peer) (links_setEp rfl rfl) rfl active rfl
  · rename_i breaking
    exact some.inj run ▸ closing.parting aimed breaking
  · rename_i peer dead parted
    have shut : n.openFor s = false := by rw [openFor, parted]
    have ended : ((n.part s peer dead).ep s.other).eof = true ∨
        (n.control s.other).late = true := by
      cases peer with
      | none => exact .inr (closing.alone s dead parted)
      | some p =>
        obtain rfl := closing.parted s p dead parted
        exact .inl (part_eof n s _ dead)
    exact some.inj run ▸ closing.settled (Controls.part n s peer dead)
      (control_part n s peer dead) rfl (closing.quiet s shut) ended
  · rename_i putting
    have shut : n.openFor s = false := by rw [openFor, putting]
    have late : (n.control s).late = true := by rw [putting]; rfl
    have dropped : Controls n (n.setEp s (n.ep s).drop) :=
      (Controls.refl n).setEp ⟨id, id, id, id, id, .inl rfl⟩ rfl
    have after := dropped.destroyIf (((n.setEp s (n.ep s).drop).ep s).refs = 0) s
    exact some.inj run ▸ closing.settled after (control_destroyIf _ _ s) rfl
      (closing.quiet s shut) ((closing.ended s late).imp_left (after.worn s.other).1.eof)
  · cases run
  · cases run

theorem step_closing {a : StreamAction} (run : n.step a = some t) (aimed : n.Aimed)
    (closing : n.Closing) : t.Closing := by
  cases a with
  | write s data => exact (write_call run).closing closing
  | check s => exact (check_call run).closing closing
  | fill s => exact (fill_call run).closing closing
  | read s size => exact (read_call run).closing closing
  | poll s => exact (poll_call run).closing closing
  | shutdown s how => exact shutdown_closing run closing
  | close s => exact close_closing run closing
  | control s => exact proceed_closing run aimed closing

end Session

end CactKernel.Unix
