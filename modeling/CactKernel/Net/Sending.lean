import CactKernel.Lib.Bytes
import CactKernel.Net.Tcp

/-! # What a TCP send reports

`tcp_send` and its two callers, `socket_write_op` and SENDTO on a TCP socket, with the
transmit buffers beside the stack of `tcp_api.rs`. -/

set_option autoImplicit false

namespace CactKernel.Net

open Function Lib.Bytes

/-- The stack, with the transmit buffer behind every handle. -/
structure Sender (T : Smoltcp) where
  stack : Stack T
  tx : Nat → T.Tx

/-- What `socket_write_op` reads of the row of a TCP socket. -/
structure SendRow where
  protoIdx : Int
  shutdownWr : Bool

inductive SendCall
  | tcpSend (sock : Int) (len : UInt16)
  /-- `none` is a node without a row. -/
  | write (row : Option SendRow) (size : UInt32)
  /-- Whether there is an argument, whether it was copied, whether its buffer is the user's. -/
  | sendto (row : SendRow) (given copied valid : Bool) (len : UInt32)

/-- The slot and the length that a call passes to `tcp_send`, or the code it returns before. -/
def SendCall.passes : SendCall → Except Int (Int × UInt16)
  | .tcpSend sock len => .ok (sock, len)
  | .write none _ => .error (-1)
  | .write (some row) size =>
    if row.shutdownWr then .error (-1) else .ok (row.protoIdx, size.toUInt16)
  | .sendto row given copied valid len =>
    if !given then .error (-22)
    else if !copied then .error (-14)
    else if !valid then .error (-14)
    else if len > 65535 then .error (-1)
    else .ok (row.protoIdx, len.toUInt16)

variable {T : Smoltcp}

namespace Sender

/-- The connection behind a slot, if it may send; the outer `none` is a panic. -/
def connection (w : Sender T) (sock : Int) : Option (Option Nat) :=
  if sock < 0 then some none
  else
    match w.stack.slotSocket sock.toNat with
    | none => some none
    | some (set, h) => (set.getTcp h).map fun s => if T.maySend s then some h else none

variable (memory : Nat → UInt8)

/-- `data` is an address in `memory`. -/
def tcpSend (w : Sender T) (sock : Int) (data : Nat) (len : UInt16) : Option (Int × Sender T) :=
  if data = 0 then some (-1, w)
  else
    (w.connection sock).map fun
      | none => (-1, w)
      | some h =>
        -- The count that `send_slice` returns is dropped.
        let (_, tx) := T.sendSlice (w.tx h) (peek memory data len.toNat)
        (len.toNat, { w with tx := update w.tx h tx })

def send (w : Sender T) (data : Nat) (call : SendCall) : Option (Int × Sender T) :=
  match call.passes with
  | .error code => some (code, w)
  | .ok (sock, len) => w.tcpSend memory sock data len

/-- How many bytes a call gets to `send_slice`, and of which connection. -/
def hands (w : Sender T) (data : Nat) (call : SendCall) : Option (Nat × Nat) := do
  let (sock, len) ← call.passes.toOption
  let h ← (w.connection sock).join
  if data = 0 then none else some (len.toNat, h)

/-- A result `n` that is no error says that the first `n` bytes were appended. -/
def Exact (w : Sender T) (data : Nat) (call : SendCall) : Prop :=
  ∀ n w', w.send memory data call = some (n, w') → 0 ≤ n → ∃ len h,
    w.hands data call = some (len, h) ∧
      T.sent (w'.tx h) = T.sent (w.tx h) ++ peek memory data n.toNat

/-- The bytes of the call fit into the transmit buffer. -/
def Fits (w : Sender T) (data : Nat) (call : SendCall) : Prop :=
  ∀ len h, w.hands data call = some (len, h) → len ≤ T.room (w.tx h)

end Sender

/-! ## One call -/

theorem SendCall.refused_neg {call : SendCall} {code : Int} (refused : call.passes = .error code) :
    code < 0 := by
  rw [passes.eq_def] at refused
  grind

theorem sendSlice_whole (tx : T.Tx) (data : List UInt8) :
    T.sent (T.sendSlice tx data).2 = T.sent tx ++ data ↔ data.length ≤ T.room tx := by
  rw [T.sendSlice_sent, List.append_cancel_left_eq]
  refine ⟨fun whole => ?_, fun fits => by rw [Nat.min_eq_right fits, List.take_length]⟩
  have counted := congrArg List.length whole
  rw [List.length_take] at counted
  omega

namespace Sender

variable {memory : Nat → UInt8} {w w' : Sender T} {data : Nat} {call : SendCall} {n : Int}

theorem send_none (refused : w.hands data call = none)
    (run : w.send memory data call = some (n, w')) : n < 0 ∧ w' = w := by
  rw [send] at run
  cases passed : call.passes with
  | error code =>
    rw [passed] at run
    cases run
    exact ⟨SendCall.refused_neg passed, rfl⟩
  | ok args =>
    simp only [passed, tcpSend] at run
    by_cases null : data = 0
    · rw [if_pos null] at run
      cases run
      exact ⟨by decide, rfl⟩
    · rw [if_neg null] at run
      obtain ⟨_ | h, found, made⟩ := Option.map_eq_some_iff.mp run
      · cases made
        exact ⟨by decide, rfl⟩
      · simp [hands, passed, Except.toOption, found, null] at refused

theorem send_some {len h : Nat} (given : w.hands data call = some (len, h)) :
    w.send memory data call = some ((len : Int),
      { w with tx := update w.tx h (T.sendSlice (w.tx h) (peek memory data len)).2 }) := by
  simp only [hands, Option.bind_eq_bind, Option.bind_eq_some_iff] at given
  obtain ⟨⟨sock, bytes⟩, passed, h, found, made⟩ := given
  obtain ⟨valid, made⟩ := Option.ite_none_left_eq_some.mp made
  cases made
  rw [Option.join_eq_some_iff] at found
  cases outcome : call.passes with
  | error code => simp [outcome, Except.toOption] at passed
  | ok args =>
    simp only [outcome, Except.toOption, Option.some.injEq] at passed
    simp [send, outcome, passed, tcpSend, found, valid]

theorem exact_iff : w.Exact memory data call ↔ w.Fits data call := by
  cases given : w.hands data call with
  | none =>
    refine iff_of_true (fun n w' run counted => ?_) (by simp [Fits, given])
    exact absurd (send_none given run).1 (by omega)
  | some bytes =>
    obtain ⟨len, h⟩ := bytes
    have whole := sendSlice_whole (w.tx h) (peek memory data len)
    simp only [peek, List.length_map, List.length_range] at whole
    simp [Exact, Fits, given, send_some given, peek, ← whole]

end Sender

/-! ## A caller that retries -/

/-- `done` is the sum of the results so far. -/
structure Retry (T : Smoltcp) where
  sender : Sender T
  done : Nat

inductive RetryAction (T : Smoltcp)
  /-- The stack runs: tables and connections change, and room becomes free. -/
  | poll (stack : Stack T) (tx : Nat → T.Tx)
  | call (c : SendCall)

namespace Retry

variable (memory : Nat → UInt8) (start : Nat)

def Step (r : Retry T) (a : RetryAction T) (r' : Retry T) : Prop :=
  match a with
  | .poll stack tx =>
    r' = ⟨⟨stack, tx⟩, r.done⟩ ∧ ∀ h, T.sent (tx h) = T.sent (r.sender.tx h)
  | .call c =>
    (r.sender.send memory (start + r.done) c).map (fun (n, w) => ⟨w, r.done + n.toNat⟩) = some r'

/-- What the caller hands over goes to connection `h` and fits. -/
def Guard (h : Nat) (r : Retry T) : RetryAction T → Prop
  | .poll _ _ => True
  | .call c => r.sender.Fits (start + r.done) c ∧
      ∀ len k, r.sender.hands (start + r.done) c = some (len, k) → k = h

variable {memory : Nat → UInt8} {start h : Nat} {sent : List UInt8} {r r' : Retry T}
  {a : RetryAction T}

theorem step_delivers (meets : r.Guard start h a) (run : r.Step memory start a r')
    (before : T.sent (r.sender.tx h) = sent ++ peek memory start r.done) :
    T.sent (r'.sender.tx h) = sent ++ peek memory start r'.done := by
  cases a with
  | poll stack tx =>
    obtain ⟨rfl, kept⟩ := run
    exact (kept h).trans before
  | call c =>
    obtain ⟨⟨n, w⟩, sending, made⟩ := Option.map_eq_some_iff.mp run
    cases made
    by_cases counted : 0 ≤ n
    · obtain ⟨len, k, given, appended⟩ := Sender.exact_iff.mpr meets.1 n w sending counted
      cases meets.2 len k given
      simp [appended, before, peek, List.range_add, Nat.add_assoc]
    · cases given : r.sender.hands (start + r.done) c with
      | none =>
        obtain ⟨refused, rfl⟩ := Sender.send_none given sending
        simpa [Int.toNat_of_nonpos refused.le] using before
      | some bytes =>
        cases (Sender.send_some given).symm.trans sending
        exact absurd (Int.natCast_nonneg _) counted

end Retry

/-- A result counts the bytes that were appended exactly when all of them fitted; then a caller
that goes on behind them delivers its data. -/
theorem tcp_send_exact_iff (T : Smoltcp) (memory : Nat → UInt8) :
    (∀ (w : Sender T) data call, Sender.Exact memory w data call ↔ w.Fits data call) ∧
    ∀ start h sent (r : Retry T), Lib.Reach
        (fun r : Retry T => r.done = 0 ∧ T.sent (r.sender.tx h) = sent)
        (Lib.restrict (Retry.Guard start h) (Retry.Step memory start)) r →
      T.sent (r.sender.tx h) = sent ++ peek memory start r.done := by
  refine ⟨fun _ _ _ => Sender.exact_iff, ?_⟩
  intro start h sent r reached
  refine reached.invariant
    (fun r : Retry T => T.sent (r.sender.tx h) = sent ++ peek memory start r.done)
    ?_ fun r a r' before move => Retry.step_delivers move.1 move.2 before
  rintro r ⟨first, held⟩
  simp [peek, first, held]

/-- Two bytes are sent where one fits: the result is 2, and the second byte is lost. -/
theorem tcp_send_overstates :
    ∃ w w' : Sender plain, w.send (fun _ => 7) 1 (.tcpSend 0 2) = some (2, w') ∧
      plain.sent (w.tx 0) = [] ∧ plain.sent (w'.tx 0) = [7] := by
  refine ⟨⟨⟨true, some fun _ => some (.tcp ⟨0, .established, 0⟩), fun _ => some 0,
    fun _ => .free, fun _ => none, fun _ => false⟩, fun _ => ⟨[], 1⟩⟩, _, rfl, rfl, rfl⟩

end CactKernel.Net
