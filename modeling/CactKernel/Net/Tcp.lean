import CactKernel.Lib.Reach

/-! # TCP and UDP slots over the smoltcp socket set

`tcp.rs`, `tcp_api.rs`, `tcp_accept.rs`, `udp.rs` and the set-up of `stack.rs`, over any
`smoltcp` that keeps the rows of buffers its sockets were built over. `none` is a
panic. -/

set_option autoImplicit false

namespace CactKernel.Net

open Function

def tcpMaxSockets : Nat := 8
def udpSockMax : Nat := 8

inductive TcpState
  | closed
  | listen
  | synSent
  | synReceived
  | established
  | finWait1
  | finWait2
  | closeWait
  | closing
  | lastAck
  | timeWait
deriving DecidableEq

/-- The sockets of the set; `other` are those for ICMP and for the resolver. -/
inductive Socket (σ : Type)
  | tcp (s : σ)
  | udp (row : Nat)
  | other
deriving DecidableEq

/-- The sockets by their handles. -/
abbrev SocketSet (σ : Type) := Nat → Option (Socket σ)

/-- What the kernel uses of the crate `smoltcp`, and what is assumed of it. -/
structure Smoltcp where
  /-- `tcp::Socket`. -/
  TcpSock : Type
  /-- What comes in between two polls. -/
  Wire : Type
  /-- The addresses of a connection. -/
  Addr : Type
  /-- A socket over `TCP_RX_BUFS[row]` and `TCP_TX_BUFS[row]`. -/
  new : Nat → TcpSock
  /-- The row that a socket was built over. -/
  row : TcpSock → Nat
  state : TcpSock → TcpState
  listenPort : TcpSock → UInt16
  isOpen : TcpSock → Bool
  maySend : TcpSock → Bool
  /-- `none` is an error. -/
  listen : TcpSock → UInt16 → Option TcpSock
  connect : TcpSock → Addr → Option TcpSock
  /-- `none` is a panic. -/
  add : SocketSet TcpSock → Socket TcpSock → Option (Nat × SocketSet TcpSock)
  remove : SocketSet TcpSock → Nat → Option (SocketSet TcpSock)
  poll : SocketSet TcpSock → Wire → SocketSet TcpSock
  /-- The transmit buffer of a socket: every byte that was appended, and how many more fit. -/
  Tx : Type
  sent : Tx → List UInt8
  room : Tx → Nat
  /-- `send_slice` where `may_send` is true, and the number that it returns. -/
  sendSlice : Tx → List UInt8 → Nat × Tx
  row_new : ∀ i, row (new i) = i
  row_listen : ∀ {s port s'}, listen s port = some s' → row s' = row s
  row_connect : ∀ {s addr s'}, connect s addr = some s' → row s' = row s
  add_some : ∀ {set s h set'}, add set s = some (h, set') →
    set h = none ∧ set' = update set h (some s)
  remove_some : ∀ {set h set'}, remove set h = some set' → set' = update set h none
  /-- A poll neither adds nor removes a socket, and a socket keeps its buffers. -/
  poll_tcp : ∀ {set h s} wire, set h = some (.tcp s) →
    ∃ s', poll set wire h = some (.tcp s') ∧ row s' = row s
  poll_udp : ∀ {set h i} wire, set h = some (.udp i) → poll set wire h = some (.udp i)
  poll_back : ∀ {set h s' wire}, poll set wire h = some (.tcp s') →
    ∃ s, set h = some (.tcp s) ∧ row s' = row s
  sendSlice_count : ∀ tx data, (sendSlice tx data).1 = min (room tx) data.length
  sendSlice_sent : ∀ tx data, sent (sendSlice tx data).2 =
    sent tx ++ data.take (min (room tx) data.length)

variable {T : Smoltcp}

namespace SocketSet

def empty : SocketSet T.TcpSock := fun _ => none

/-- The handle that a free slot was left with. -/
def removeOld (set : SocketSet T.TcpSock) : Option Nat → Option (SocketSet T.TcpSock)
  | some old => T.remove set old
  | none => some set

def getTcp (set : SocketSet T.TcpSock) (h : Nat) : Option T.TcpSock :=
  match set h with
  | some (.tcp s) => some s
  | _ => none

/-- A socket that was changed through `get_mut`. -/
def put (set : SocketSet T.TcpSock) (h : Nat) (s : T.TcpSock) : SocketSet T.TcpSock :=
  update set h (some (.tcp s))

end SocketSet

/-- `TcpSocket`, the row of `tcp_sockets` seen by the C side. -/
structure TcpSlot where
  used : Bool
  state : TcpState
  listenParent : Option Nat
  acceptReady : Bool
deriving DecidableEq

def TcpSlot.free : TcpSlot := ⟨false, .closed, none, false⟩

structure Stack (T : Smoltcp) where
  stackReady : Bool
  /-- `SOCKET_SET`, set and cleared together with `IFACE`. -/
  socks : Option (SocketSet T.TcpSock)
  tcpHandle : Nat → Option Nat
  tcpSockets : Nat → TcpSlot
  udpHandle : Nat → Option Nat
  udpUsed : Nat → Bool

namespace Stack

def setTcpHandle (n : Stack T) (i : Nat) (h : Option Nat) : Stack T :=
  { n with tcpHandle := update n.tcpHandle i h }

def setSlot (n : Stack T) (i : Nat) (slot : TcpSlot) : Stack T :=
  { n with tcpSockets := update n.tcpSockets i slot }

def setUdp (n : Stack T) (i : Nat) (h : Option Nat) (used : Bool) : Stack T :=
  { n with
    udpHandle := update n.udpHandle i h
    udpUsed := update n.udpUsed i used }

def setSocks (n : Stack T) (set : SocketSet T.TcpSock) : Stack T := { n with socks := some set }

/-- `socks.remove(h)` of a handle that was taken, if the stack is up. -/
def removeSocket (n : Stack T) (taken : Option Nat) : Option (Stack T) :=
  match taken, n.socks with
  | some h, some set => (T.remove set h).map n.setSocks
  | _, _ => some n

/-! ## The stack -/

def stackInit (n : Stack T) : Option (Stack T) :=
  if n.stackReady then some n
  else do
    let (_, set) ← T.add .empty .other
    let (_, set) ← T.add set .other
    some { n with socks := some set, stackReady := true }

def stackTeardown (n : Stack T) : Stack T :=
  { n with
    stackReady := false
    socks := none
    tcpHandle := fun _ => none
    tcpSockets := fun _ => .free
    udpHandle := fun _ => none
    udpUsed := fun _ => false }

/-- `sync_tcp_pcbs_from_smoltcp` for one slot. -/
def syncSlot (n : Stack T) (set : SocketSet T.TcpSock) (i : Nat) : TcpSlot :=
  let slot := n.tcpSockets i
  if i < tcpMaxSockets ∧ slot.used then
    match (n.tcpHandle i).bind set.getTcp with
    | some s =>
      { slot with
        state := T.state s
        acceptReady := T.state s = .established ∧ T.listenPort s ≠ 0 }
    | none => slot
  else slot

def stackPoll (n : Stack T) (wire : T.Wire) : Stack T :=
  if n.stackReady then
    match n.socks with
    | some set =>
      let set := T.poll set wire
      { n with socks := some set, tcpSockets := n.syncSlot set }
    | none => n
  else n

/-! ## TCP -/

def allocTcpSmoltcp (i : Nat) (set : SocketSet T.TcpSock) : Option (Nat × SocketSet T.TcpSock) :=
  T.add set (.tcp (T.new i))

def freeTcpSlot (n : Stack T) : Option Nat :=
  (List.range tcpMaxSockets).find? fun i => !(n.tcpSockets i).used

def tcpSocket (n : Stack T) : Option (Option Nat × Stack T) :=
  if n.stackReady = false then some (none, n)
  else
    match n.freeTcpSlot with
    | none => some (none, n)
    | some idx =>
      match n.socks with
      | none => some (none, n.setSlot idx .free)
      | some set => do
        let (h, set) ← allocTcpSmoltcp idx set
        let n := n.setSlot idx { TcpSlot.free with used := true }
        some (some idx, (n.setSocks set).setTcpHandle idx (some h))

/-- The socket behind slot `sock`, if the stack is up. -/
def slotSocket (n : Stack T) (sock : Nat) : Option (SocketSet T.TcpSock × Nat) :=
  if sock < tcpMaxSockets then do
    let h ← n.tcpHandle sock
    let set ← n.socks
    some (set, h)
  else none

def tcpListen (n : Stack T) (sock : Nat) (port : UInt16) : Option (Int × Stack T) :=
  match n.slotSocket sock with
  | none => some (-1, n)
  | some (set, h) => do
    let s ← set.getTcp h
    match T.listen s port with
    | none => some (-1, n)
    | some s => some (0, n.setSocks (set.put h s))

def tcpConnect (n : Stack T) (sock : Nat) (addr : T.Addr) : Option (Int × Stack T) :=
  match n.slotSocket sock with
  | none => some (-1, n)
  | some (set, h) => do
    let s ← set.getTcp h
    if T.isOpen s then some (-1, n)
    else
      match T.connect s addr with
      | none => some (-1, n)
      | some s => some (0, n.setSocks (set.put h s))

def tcpClose (n : Stack T) (sock : Nat) : Option (Int × Stack T) :=
  if sock ≥ tcpMaxSockets then some (-1, n)
  else do
    let n ← (n.setTcpHandle sock none).removeSocket (n.tcpHandle sock)
    some (0, n.setSlot sock .free)

/-- The first half of `tcp_accept_transfer`: the handle and the port of an established
inbound connection. -/
def acceptable (n : Stack T) (li : Nat) : Option (Option (SocketSet T.TcpSock × Nat × UInt16)) :=
  match n.slotSocket li with
  | none => some none
  | some (set, lh) => do
    let s ← set.getTcp lh
    if T.state s = .established ∧ T.listenPort s ≠ 0 then some (some (set, lh, T.listenPort s))
    else some none

/-- The second half: the child takes over the handle, and the listening slot gets a new
socket. -/
def acceptInto (n : Stack T) (li ci : Nat) (set : SocketSet T.TcpSock) (lh : Nat) (port : UInt16) :
    Option (Int × Stack T) := do
  let set ← set.removeOld (n.tcpHandle ci)
  let n := (n.setTcpHandle ci (some lh)).setTcpHandle li none
  let n := n.setSlot ci
    { n.tcpSockets ci with used := true, listenParent := some li, acceptReady := false }
  let (nh, set) ← allocTcpSmoltcp li set
  let n := n.setTcpHandle li (some nh)
  let n := n.setSlot li { n.tcpSockets li with used := true, acceptReady := false }
  let nls ← set.getTcp nh
  match T.listen nls port with
  | none => some (-1, n.setSocks set)
  | some s => some (0, n.setSocks (set.put nh s))

def tcpAcceptTransfer (n : Stack T) (li ci : Nat) : Option (Int × Stack T) :=
  if li ≥ tcpMaxSockets ∨ ci ≥ tcpMaxSockets then some (-1, n)
  else do
    match ← n.acceptable li with
    | none => some (-1, n)
    | some (set, lh, port) =>
      if (n.tcpSockets ci).used then some (-1, n) else n.acceptInto li ci set lh port

/-! ## UDP -/

def udpSockAlloc (n : Stack T) : Option (Option Nat × Stack T) :=
  if n.stackReady = false then some (none, n)
  else
    match n.socks with
    | none => some (none, n)
    | some set =>
      match (List.range udpSockMax).find? fun i => !n.udpUsed i with
      | none => some (none, n)
      | some i => do
        let (h, set) ← T.add set (.udp i)
        some (some i, (n.setSocks set).setUdp i (some h) true)

def udpSockFree (n : Stack T) (i : Nat) : Option (Stack T) :=
  if i ≥ udpSockMax then some n
  else do
    let n ← n.removeSocket (n.udpHandle i)
    some (n.setUdp i none false)

end Stack

/-! ## Runs -/

inductive Action (T : Smoltcp)
  | init
  | teardown
  | poll (wire : T.Wire)
  | socket
  | listen (sock : Nat) (port : UInt16)
  | connect (sock : Nat) (addr : T.Addr)
  | accept (li ci : Nat)
  | close (sock : Nat)
  | udpAlloc
  | udpFree (i : Nat)

namespace Stack

def step (n : Stack T) : Action T → Option (Stack T)
  | .init => n.stackInit
  | .teardown => some n.stackTeardown
  | .poll wire => some (n.stackPoll wire)
  | .socket => n.tcpSocket.map Prod.snd
  | .listen sock port => (n.tcpListen sock port).map Prod.snd
  | .connect sock addr => (n.tcpConnect sock addr).map Prod.snd
  | .accept li ci => (n.tcpAcceptTransfer li ci).map Prod.snd
  | .close sock => (n.tcpClose sock).map Prod.snd
  | .udpAlloc => n.udpSockAlloc.map Prod.snd
  | .udpFree i => n.udpSockFree i

def start : Stack T :=
  ⟨false, none, fun _ => none, fun _ => .free, fun _ => none, fun _ => false⟩

end Stack

def Initial (n : Stack T) : Prop := n = .start

def Step (n : Stack T) (a : Action T) (n' : Stack T) : Prop := n.step a = some n'

/-! ## A crate that keeps the assumptions -/

structure PlainSock where
  row : Nat
  state : TcpState
  listenPort : UInt16
deriving DecidableEq

def PlainSock.isOpen (s : PlainSock) : Bool := s.state ≠ .closed && s.state ≠ .timeWait

structure PlainTx where
  sent : List UInt8
  room : Nat

/-- Forty handles, of which the first free one is taken; a poll sets what came in by the wire. -/
def plain : Smoltcp where
  TcpSock := PlainSock
  Wire := Nat → TcpState × UInt16
  Addr := Unit
  new row := ⟨row, .closed, 0⟩
  row := PlainSock.row
  state := PlainSock.state
  listenPort := PlainSock.listenPort
  isOpen := PlainSock.isOpen
  maySend s := s.state = .established || s.state = .closeWait
  listen s port :=
    if port = 0 ∨ s.isOpen then none else some { s with state := .listen, listenPort := port }
  connect s _ := if s.isOpen then none else some { s with state := .synSent, listenPort := 0 }
  add set s := ((List.range 40).find? fun h => (set h).isNone).map fun h =>
    (h, update set h (some s))
  remove set h := if (set h).isSome then some (update set h none) else none
  poll set wire h :=
    match set h with
    | some (.tcp s) => some (.tcp { s with state := (wire h).1, listenPort := (wire h).2 })
    | x => x
  Tx := PlainTx
  sent := PlainTx.sent
  room := PlainTx.room
  sendSlice tx data :=
    let n := min tx.room data.length
    (n, ⟨tx.sent ++ data.take n, tx.room - n⟩)
  row_new _ := rfl
  row_listen listening := by
    split at listening
    · cases listening
    · exact Option.some.inj listening ▸ rfl
  row_connect connecting := by
    split at connecting
    · cases connecting
    · exact Option.some.inj connecting ▸ rfl
  add_some run := by
    obtain ⟨found, first, same⟩ := Option.map_eq_some_iff.mp run
    cases same
    have empty := List.find?_some first
    exact ⟨Option.isNone_iff_eq_none.mp empty, rfl⟩
  remove_some run := by
    split at run
    · exact (Option.some.inj run).symm
    · cases run
  poll_tcp wire there := by
    rw [there]
    exact ⟨_, rfl, rfl⟩
  poll_udp wire there := by rw [there]
  poll_back found := by
    split at found
    · rename_i s there
      cases found
      exact ⟨s, there, rfl⟩
    · rename_i other
      exact absurd found (other _)
  sendSlice_count _ _ := rfl
  sendSlice_sent _ _ := rfl

end CactKernel.Net
