import CactKernel.Lib.Fifo
import CactKernel.Unix.Stream

/-! # What a step of a connection can do

Everything a step can do, once: a write begins, stops, aims at the peer, waits or
pushes; a read begins or returns; or the controlling tasks end more of the
connection without touching a ring. Each direction of the connection is then a
first-in, first-out stream. -/

set_option autoImplicit false

namespace CactKernel.Unix

open Lib Option Bool

variable {s : Side}

namespace Side

@[simp] theorem other_other (s : Side) : s.other.other = s := by cases s <;> rfl

theorem other_ne (s : Side) : s.other ≠ s := by cases s <;> decide

theorem both {P : Side → Prop} (here : P s) (there : P s.other) (s' : Side) : P s' := by
  cases s <;> cases s' <;> first | exact here | exact there

end Side

/-! ## Flags are only set -/

/-- `e'` is `e` with more of it ended. -/
structure Endpoint.Worn {ι φ : Type} (e e' : Endpoint ι φ) : Prop where
  used : e'.used = true → e.used = true
  shutRd : e.shutRd = true → e'.shutRd = true
  shutWr : e.shutWr = true → e'.shutWr = true
  eof : e.eof = true → e'.eof = true
  peerNoRead : e.peerNoRead = true → e'.peerNoRead = true
  peer : e'.peer = e.peer ∨ e'.peer = none

namespace Endpoint

variable {ι φ : Type} {e e' e'' : Endpoint ι φ}

theorem Worn.refl (e : Endpoint ι φ) : Worn e e := ⟨id, id, id, id, id, .inl rfl⟩

theorem Worn.trans (first : Worn e e') (second : Worn e' e'') : Worn e e'' where
  used := first.used ∘ second.used
  shutRd := second.shutRd ∘ first.shutRd
  shutWr := second.shutWr ∘ first.shutWr
  eof := second.eof ∘ first.eof
  peerNoRead := second.peerNoRead ∘ first.peerNoRead
  peer := by
    rcases second.peer with same | gone
    · rw [same]
      exact first.peer
    · exact .inr gone

theorem part_worn (e : Endpoint ι φ) : Worn e e.part ∧ e.part.rx = e.rx := by
  rw [part]
  split
  · exact ⟨⟨id, id, id, id, id, .inr rfl⟩, rfl⟩
  · exact ⟨.refl e, rfl⟩

theorem orphan_worn (e : Endpoint ι φ) : Worn e e.orphan :=
  ⟨id, id, id, fun _ => rfl, fun _ => rfl, .inr rfl⟩

theorem retire_worn (e : Endpoint ι φ) : Worn e e.retire :=
  ⟨(fun used => nomatch used), id, id, id, id, .inr rfl⟩

theorem Worn.deaf (worn : Worn e e') (deaf : e.deaf = true) : e'.deaf = true := by
  simp only [Endpoint.deaf, or_eq_true, not_eq_true'] at deaf ⊢
  rcases deaf with (unused | peerNoRead) | shutRd
  · refine .inl (.inl ?_)
    by_contra used
    rw [worn.used (by simpa using used)] at unused
    cases unused
  · exact .inl (.inr (worn.peerNoRead peerNoRead))
  · exact .inr (worn.shutRd shutRd)

end Endpoint

open Endpoint

namespace Session

variable {n t : Session}

theorem ep_setEp (n : Session) (s s' : Side) (e : Endpoint Side Empty) :
    (n.setEp s e).ep s' = if s' = s then e else n.ep s' :=
  Function.update_apply n.ep s e s'

/-- The tasks that read and write, and the rings, are as before. -/
structure Controls (n t : Session) : Prop where
  writer : t.writer = n.writer
  reader : t.reader = n.reader
  writes : t.writes = n.writes
  reads : t.reads = n.reads
  worn : ∀ s, Worn (n.ep s) (t.ep s) ∧ (t.ep s).rx = (n.ep s).rx

namespace Controls

theorem refl (n : Session) : Controls n n := ⟨rfl, rfl, rfl, rfl, fun _ => ⟨.refl _, rfl⟩⟩

theorem setEp (c : Controls n t) {e : Endpoint Side Empty} (worn : Worn (t.ep s) e)
    (rx : e.rx = (t.ep s).rx) : Controls n (t.setEp s e) := by
  refine ⟨c.writer, c.reader, c.writes, c.reads, ?_⟩
  intro s'
  rw [ep_setEp]
  by_cases same : s' = s
  · rw [if_pos same, same]
    exact ⟨(c.worn s).1.trans worn, rx.trans (c.worn s).2⟩
  · rw [if_neg same]
    exact c.worn s'

theorem setControl (c : Controls n t) (s : Side) (x : Control) : Controls n (t.setControl s x) :=
  ⟨c.writer, c.reader, c.writes, c.reads, c.worn⟩

theorem destroy (c : Controls n t) (s : Side) : Controls n (t.destroy s) := by
  rw [Session.destroy]
  by_cases unused : (t.ep s).used = false
  · rw [if_pos unused]
    exact c
  rw [if_neg unused]
  have retired := c.setEp (retire_worn (t.ep s)) rfl
  dsimp only
  split
  · exact retired
  rename_i peer _
  have orphaned := retired.setEp (orphan_worn ((t.setEp s (t.ep s).retire).ep peer)) rfl
  split
  · exact orphaned.setEp (retire_worn _) rfl
  · exact orphaned

theorem destroyIf (c : Controls n t) (dead : Bool) (s : Side) :
    Controls n (destroyIf dead t s) := by
  cases dead with
  | false => exact c
  | true => exact c.destroy s

theorem part (n : Session) (s : Side) (peer : Option Side) (dead : Bool) :
    Controls n (n.part s peer dead) := by
  cases peer with
  | none => exact (refl n).destroyIf dead s
  | some peer =>
    have orphaned := (refl n).setEp (orphan_worn (n.ep peer)) rfl
    exact (orphaned.destroyIf dead s).destroyIf _ peer

theorem setShutRd (n : Session) (s : Side) :
    Controls n (n.setEp s { n.ep s with shutRd := true }) :=
  (refl n).setEp ⟨id, fun _ => rfl, id, id, id, .inl rfl⟩ rfl

theorem setShutWr (n : Session) (s : Side) :
    Controls n (n.setEp s { n.ep s with shutWr := true }) :=
  (refl n).setEp ⟨id, id, fun _ => rfl, id, id, .inl rfl⟩ rfl

theorem setEof (n : Session) (s : Side) : Controls n (n.setEp s { n.ep s with eof := true }) :=
  (refl n).setEp ⟨id, id, id, fun _ => rfl, id, .inl rfl⟩ rfl

theorem setPeerNoRead (n : Session) (s : Side) :
    Controls n (n.setEp s { n.ep s with peerNoRead := true }) :=
  (refl n).setEp ⟨id, id, id, id, fun _ => rfl, .inl rfl⟩ rfl

end Controls

theorem control_destroyIf (dead : Bool) (n : Session) (s : Side) :
    (destroyIf dead n s).control = n.control := by
  cases dead with
  | false => rfl
  | true =>
    rw [destroyIf, if_pos rfl, destroy]
    split
    · rfl
    dsimp only
    split
    · rfl
    · split <;> rfl

theorem control_part (n : Session) (s : Side) (peer : Option Side) (dead : Bool) :
    (n.part s peer dead).control = n.control := by
  cases peer with
  | none => exact control_destroyIf dead n s
  | some p => exact (control_destroyIf _ _ p).trans (control_destroyIf dead _ s)

theorem control_setControl (n : Session) (s s' : Side) (x : Control) :
    (n.setControl s x).control s' = if s' = s then x else n.control s' :=
  Function.update_apply n.control s x s'

/-- The controlling task of a side that is not closed goes on. -/
structure Governs (n : Session) (s : Side) (t : Session) : Prop where
  controls : Controls n t
  working : n.control s ≠ .closed
  others : ∀ s', s' ≠ s → t.control s' = n.control s'

theorem Controls.governs {m : Session} (c : Controls n m) (same : m.control = n.control)
    (x : Control) (working : n.control s ≠ .closed) : Governs n s (m.setControl s x) :=
  ⟨c.setControl s x, working, fun s' other => by rw [control_setControl, if_neg other, same]⟩

theorem shutdown_governs {how : Shutdown} (run : n.shutdown s how = some t) : Governs n s t := by
  simp only [shutdown] at run
  split at run
  · rename_i ready
    have working : n.control s ≠ .closed := by rw [ready]; nofun
    cases how with
    | rd | rdwr => exact some.inj run ▸ (Controls.setShutRd n s).governs rfl _ working
    | wr => exact some.inj run ▸ (Controls.setShutWr n s).governs rfl _ working
  · cases run

theorem close_cases (run : n.close s = some t) :
    n.control s = .ready ∧ n.writer s = .idle ∧ n.reader s = .idle ∧
      ((n.ep s).used = false ∧ t = n.setControl s .closed ∨
        (∃ p, (n.ep s).peer = some p) ∧ t = n.setControl s .breaking ∨
        (n.ep s).peer = none ∧ t = n.setControl s .putting) := by
  rw [close] at run
  split at run
  · rename_i ready writer reader
    refine ⟨ready, writer, reader, ?_⟩
    split at run
    · rename_i unused
      exact .inl ⟨unused, (some.inj run).symm⟩
    split at run
    · rename_i p there
      exact .inr (.inl ⟨⟨p, there⟩, (some.inj run).symm⟩)
    · rename_i gone
      exact .inr (.inr ⟨gone, (some.inj run).symm⟩)
  · cases run

theorem close_governs (run : n.close s = some t) : Governs n s t := by
  obtain ⟨ready, _, _, result⟩ := close_cases run
  have working : n.control s ≠ .closed := by rw [ready]; nofun
  rcases result with ⟨_, rfl⟩ | ⟨_, rfl⟩ | ⟨_, rfl⟩
  · exact (Controls.refl n).governs rfl _ working
  · exact (Controls.refl n).governs rfl _ working
  · exact (Controls.refl n).governs rfl _ working

theorem proceed_governs (run : n.proceed s = some t) : Governs n s t := by
  have working : n.control s ≠ .closed := by
    intro closed
    rw [proceed, closed] at run
    cases run
  rw [proceed] at run
  split at run
  · rename_i peer wr _
    cases peer with
    | none => exact some.inj run ▸ (Controls.refl n).governs rfl _ working
    | some peer => exact some.inj run ▸ (Controls.setPeerNoRead n peer).governs rfl _ working
  · exact some.inj run ▸ (Controls.setShutWr n s).governs rfl _ working
  · rename_i peer _
    cases peer with
    | none => exact some.inj run ▸ (Controls.refl n).governs rfl _ working
    | some peer => exact some.inj run ▸ (Controls.setEof n peer).governs rfl _ working
  · have parted := part_worn (n.ep s)
    exact some.inj run ▸ ((Controls.refl n).setEp parted.1 parted.2).governs rfl _ working
  · exact some.inj run ▸ (Controls.part n s _ _).governs (control_part n s _ _) _ working
  · have dropped : Controls n (n.setEp s (n.ep s).drop) :=
      (Controls.refl n).setEp ⟨id, id, id, id, id, .inl rfl⟩ rfl
    exact some.inj run ▸ (dropped.destroyIf _ s).governs (control_destroyIf _ _ s) _ working
  · cases run
  · cases run

/-! ## The turns -/

/-- A write finds that it cannot go on. -/
inductive Stops (n : Session) (s : Side) (data : List UInt8) (written : Nat) : Prop
  | top (at_top : n.writer s = .top data written)
      (gone : (n.ep s).shutWr = true ∨ (n.ep s).peer = none)
  | fill {peer : Side} (at_fill : n.writer s = .fill data written peer)
      (deaf : (n.ep peer).deaf = true)

/-- The number of bytes that a push takes. -/
def chunk (n : Session) (peer : Side) (data : List UInt8) (written : Nat) : Nat :=
  min (data.length - written) (unixBufSize - (n.ep peer).rx.len)

def pushed (n : Session) (peer : Side) (data : List UInt8) (written : Nat) : Session :=
  n.setEp peer (accept (n.ep peer) (data.drop written))

/-- The state after the bytes that a read returns were taken. -/
def popped (n : Session) (s : Side) (size : Nat) : Session :=
  n.setEp s { n.ep s with rx := ((n.ep s).rx.pop size).2 }

/-- What the reading and the writing tasks do. -/
inductive Call (n : Session) : Session → Prop
  | none : Call n n
  | begin {s : Side} {data : List UInt8} (isOpen : n.openFor s = true) (idle : n.writer s = .idle)
      (nonempty : 0 < data.length) : Call n (n.setWriter s (.top data 0))
  | stop {s : Side} {data : List UInt8} {written : Nat} (result : Int)
      (stops : n.Stops s data written) : Call n (n.wrote s ⟨data, written, result⟩)
  | aim {s : Side} {data : List UInt8} {written : Nat} {peer : Side}
      (at_top : n.writer s = .top data written) (going : (n.ep s).shutWr = false)
      (there : (n.ep s).peer = some peer) : Call n (n.setWriter s (.fill data written peer))
  | full {s : Side} {data : List UInt8} {written : Nat} {peer : Side}
      (at_fill : n.writer s = .fill data written peer) (hears : (n.ep peer).deaf = false) :
      Call n (n.setWriter s (.top data written))
  | push {s : Side} {data : List UInt8} {written : Nat} {peer : Side}
      (at_fill : n.writer s = .fill data written peer) (hears : (n.ep peer).deaf = false)
      (more : written + n.chunk peer data written ≠ data.length) :
      Call n ((n.pushed peer data written).setWriter s
        (.top data (written + n.chunk peer data written)))
  | finish {s : Side} {data : List UInt8} {written : Nat} {peer : Side}
      (at_fill : n.writer s = .fill data written peer) (hears : (n.ep peer).deaf = false)
      (all : written + n.chunk peer data written = data.length) :
      Call n ((n.pushed peer data written).wrote s ⟨data, written + n.chunk peer data written,
        whole (written + n.chunk peer data written)⟩)
  | ask {s : Side} {size : Nat} (isOpen : n.openFor s = true) (idle : n.reader s = .idle)
      (positive : 0 < size) : Call n (n.setReader s (.waiting size))
  | ended {s : Side} {size : Nat} (waiting : n.reader s = .waiting size)
      (nothing : (n.ep s).shutRd = true ∨ (n.ep s).rx.len = 0 ∧ (n.ep s).eof = true) :
      Call n (n.got s [])
  | answer {s : Side} {size : Nat} (waiting : n.reader s = .waiting size)
      (there : 0 < (n.ep s).rx.len) :
      Call n ((n.popped s size).got s ((n.ep s).rx.pop size).1)

inductive Turn (n t : Session) : Prop
  | call (call : Call n t)
  | control {s : Side} (governs : Governs n s t)

theorem fill_call (run : n.fill s = some t) : Call n t := by
  rw [fill] at run
  split at run
  · rename_i data written peer at_fill
    by_cases deaf : (n.ep peer).deaf = true
    · rw [if_pos deaf] at run
      exact some.inj run ▸ .stop _ (.fill at_fill deaf)
    have hears := eq_false_iff.mpr deaf
    rw [if_neg deaf] at run
    split at run
    · exact some.inj run ▸ .full at_fill hears
    dsimp only at run
    split at run
    · rename_i all
      exact some.inj run ▸ .finish at_fill hears all
    · rename_i more
      exact some.inj run ▸ .push at_fill hears more
  · cases run

theorem check_call (run : n.check s = some t) : Call n t := by
  rw [check] at run
  split at run
  · rename_i data written at_top
    by_cases stopped : (n.ep s).shutWr = true
    · rw [if_pos stopped] at run
      exact some.inj run ▸ .stop _ (.top at_top (.inl stopped))
    rw [if_neg stopped] at run
    split at run
    · rename_i gone
      exact some.inj run ▸ .stop _ (.top at_top (.inr gone))
    · rename_i peer there
      exact some.inj run ▸ .aim at_top (eq_false_iff.mpr stopped) there
  · cases run

theorem poll_call (run : n.poll s = some t) : Call n t := by
  rw [poll] at run
  split at run
  · rename_i size waiting
    by_cases shut : (n.ep s).shutRd = true
    · rw [if_pos shut] at run
      exact some.inj run ▸ .ended waiting (.inl shut)
    rw [if_neg shut] at run
    by_cases there : 0 < (n.ep s).rx.len
    · rw [if_pos there] at run
      exact some.inj run ▸ .answer waiting there
    rw [if_neg there] at run
    split at run
    · rename_i eof
      exact some.inj run ▸ .ended waiting (.inr ⟨by omega, eof⟩)
    · exact some.inj run ▸ .none
  · cases run

theorem write_call {data : List UInt8} (run : n.write s data = some t) : Call n t := by
  rw [write] at run
  split at run
  · rename_i isOpen idle
    split at run
    · cases run
    split at run
    · exact some.inj run ▸ .none
    · exact some.inj run ▸ .begin isOpen idle (by omega)
  · cases run

theorem read_call {size : Nat} (run : n.read s size = some t) : Call n t := by
  rw [read] at run
  split at run
  · rename_i isOpen idle
    split at run
    · exact some.inj run ▸ .none
    · exact some.inj run ▸ .ask isOpen idle (by omega)
  · cases run

theorem step_turn {a : StreamAction} (run : n.step a = some t) : Turn n t := by
  cases a with
  | write s data => exact .call (write_call run)
  | check s => exact .call (check_call run)
  | fill s => exact .call (fill_call run)
  | read s size => exact .call (read_call run)
  | poll s => exact .call (poll_call run)
  | shutdown s how => exact .control (shutdown_governs run)
  | close s => exact .control (close_governs run)
  | control s => exact .control (proceed_governs run)

end Session

end CactKernel.Unix
