import CactKernel.Lib.Reach
import CactKernel.Unix.Endpoint

/-! # Two connected endpoints

`unix_node_read`, `unix_node_write`, `unix_shutdown_ioctl` and `unix_node_close` on the
two ends of a connection, with one writing, one reading and one controlling task on
each side. A step goes from one release of a lock to the next one; reading the
pointer to the peer, which takes no lock, is a step of its own. A side is closed when
its own reads and writes have returned, whatever the other side is doing. The memory
of a freed endpoint keeps its last contents. What the locks do to the rings is left to
`Unix.StreamLock`. -/

set_option autoImplicit false

namespace CactKernel.Unix

open Lib Function

inductive Side
  | left
  | right
deriving DecidableEq

def Side.other : Side → Side
  | .left => .right
  | .right => .left

/-- `(int)n` for a number of 32 bits. -/
def toInt32 (n : Nat) : Int := if n < 2 ^ 31 then n else n - 2 ^ 32

def ePipe : Int := 32

/-- What `unix_node_write` returns when it cannot go on. -/
def short (written : Nat) : Int := if written = 0 then -ePipe else toInt32 written

/-- What it returns at its end. -/
def whole (written : Nat) : Int := if 0x7FFFFFFF < written then 0x7FFFFFFF else toInt32 written

inductive Writer
  | idle
  /-- At the top of the loop. -/
  | top (data : List UInt8) (written : Nat)
  /-- About to lock the peer. -/
  | fill (data : List UInt8) (written : Nat) (peer : Side)

inductive Reader
  | idle
  | waiting (size : Nat)
deriving DecidableEq

inductive Control
  | ready
  /-- `SHUT_RD` is set here and not yet at the peer. -/
  | noRead (peer : Option Side) (wr : Bool)
  | shutWr
  /-- `SHUT_WR` is set here and not yet at the peer. -/
  | noWrite (peer : Option Side)
  /-- Before `ep_break`. -/
  | breaking
  /-- Between its halves. -/
  | parted (peer : Option Side) (dead : Bool)
  /-- Before `ep_put`. -/
  | putting
  | closed
deriving DecidableEq

/-- A write that has returned. -/
structure WriteCall where
  data : List UInt8
  accepted : Nat
  result : Int

/-- `reads` lists what the reads returned; nothing is the end of the file. -/
structure Session where
  ep : Side → Endpoint Side Empty
  writer : Side → Writer
  reader : Side → Reader
  control : Side → Control
  writes : Side → List WriteCall
  reads : Side → List (List UInt8)

inductive Shutdown
  | rd
  | wr
  | rdwr
deriving DecidableEq

inductive StreamAction
  | write (s : Side) (data : List UInt8)
  | check (s : Side)
  | fill (s : Side)
  | read (s : Side) (size : Nat)
  | poll (s : Side)
  | shutdown (s : Side) (how : Shutdown)
  | close (s : Side)
  | control (s : Side)

namespace Session

def setEp (n : Session) (s : Side) (e : Endpoint Side Empty) : Session :=
  { n with ep := update n.ep s e }

def setWriter (n : Session) (s : Side) (w : Writer) : Session :=
  { n with writer := update n.writer s w }

def setReader (n : Session) (s : Side) (r : Reader) : Session :=
  { n with reader := update n.reader s r }

def setControl (n : Session) (s : Side) (c : Control) : Session :=
  { n with control := update n.control s c }

/-- A write returns. -/
def wrote (n : Session) (s : Side) (call : WriteCall) : Session :=
  { n.setWriter s .idle with writes := update n.writes s (n.writes s ++ [call]) }

/-- A read returns. -/
def got (n : Session) (s : Side) (bytes : List UInt8) : Session :=
  { n.setReader s .idle with reads := update n.reads s (n.reads s ++ [bytes]) }

/-- A side whose descriptor is being closed takes no more calls. -/
def openFor (n : Session) (s : Side) : Bool :=
  match n.control s with
  | .breaking | .parted _ _ | .putting | .closed => false
  | _ => true

/-- The start of `unix_node_write`; `size` is a `uint32_t`. -/
def write (n : Session) (s : Side) (data : List UInt8) : Option Session :=
  match n.openFor s, n.writer s with
  | true, .idle =>
    if 2 ^ 32 ≤ data.length then none
    else if data.length = 0 then some n
    else some (n.setWriter s (.top data 0))
  | _, _ => none

def check (n : Session) (s : Side) : Option Session :=
  match n.writer s with
  | .top data written =>
    if (n.ep s).shutWr then some (n.wrote s ⟨data, written, short written⟩)
    else
      match (n.ep s).peer with
      | none => some (n.wrote s ⟨data, written, short written⟩)
      | some peer => some (n.setWriter s (.fill data written peer))
  | _ => none

/-- `ep_push` into the peer's ring, as much as there is space for. -/
def accept (e : Endpoint Side Empty) (bytes : List UInt8) : Endpoint Side Empty :=
  { e with rx := .pushAll (bytes.take (unixBufSize - e.rx.len)) e.rx (by
      have bound := e.rx.len_le
      rw [List.length_take]
      omega) }

def fill (n : Session) (s : Side) : Option Session :=
  match n.writer s with
  | .fill data written peer =>
    if (n.ep peer).deaf then some (n.wrote s ⟨data, written, short written⟩)
    else if unixBufSize - (n.ep peer).rx.len = 0 then some (n.setWriter s (.top data written))
    else
      let chunk := min (data.length - written) (unixBufSize - (n.ep peer).rx.len)
      let filled := n.setEp peer (accept (n.ep peer) (data.drop written))
      if written + chunk = data.length then
        some (filled.wrote s ⟨data, written + chunk, whole (written + chunk)⟩)
      else some (filled.setWriter s (.top data (written + chunk)))
  | _ => none

/-- The start of `unix_node_read`. -/
def read (n : Session) (s : Side) (size : Nat) : Option Session :=
  match n.openFor s, n.reader s with
  | true, .idle => if size = 0 then some n else some (n.setReader s (.waiting size))
  | _, _ => none

/-- A round of its loop; without bytes or end of file it calls `schedule`. -/
def poll (n : Session) (s : Side) : Option Session :=
  match n.reader s with
  | .waiting size =>
    if (n.ep s).shutRd then some (n.got s [])
    else if 0 < (n.ep s).rx.len then
      let (bytes, rx) := (n.ep s).rx.pop size
      some ((n.setEp s { n.ep s with rx := rx }).got s bytes)
    else if (n.ep s).eof then some (n.got s [])
    else some n
  | .idle => none

/-- `unix_shutdown_ioctl` up to the first release of its own lock. -/
def shutdown (n : Session) (s : Side) (how : Shutdown) : Option Session :=
  match n.control s with
  | .ready =>
    match how with
    | .rd => some ((n.setEp s { n.ep s with shutRd := true }).setControl s
        (.noRead (n.ep s).peer false))
    | .rdwr => some ((n.setEp s { n.ep s with shutRd := true }).setControl s
        (.noRead (n.ep s).peer true))
    | .wr => some ((n.setEp s { n.ep s with shutWr := true }).setControl s
        (.noWrite (n.ep s).peer))
  | _ => none

/-- `unix_node_close` up to the test whether the endpoint is connected. -/
def close (n : Session) (s : Side) : Option Session :=
  match n.control s, n.writer s, n.reader s with
  | .ready, .idle, .idle =>
    if (n.ep s).used = false then some (n.setControl s .closed)
    else
      match (n.ep s).peer with
      | some _ => some (n.setControl s .breaking)
      | none => some (n.setControl s .putting)
  | _, _, _ => none

/-- `ep_destroy`. -/
def destroy (n : Session) (s : Side) : Session :=
  if (n.ep s).used = false then n
  else
    let m := n.setEp s (n.ep s).retire
    match (n.ep s).peer with
    | none => m
    | some peer =>
      let m := m.setEp peer (m.ep peer).orphan
      if (m.ep peer).refs = 0 then m.setEp peer (m.ep peer).retire else m

def destroyIf (dead : Bool) (n : Session) (s : Side) : Session := if dead then n.destroy s else n

/-- The second half of `ep_break`. -/
def part (n : Session) (s : Side) (peer : Option Side) (dead : Bool) : Session :=
  match peer with
  | none => destroyIf dead n s
  | some peer =>
    let m := n.setEp peer (n.ep peer).orphan
    destroyIf ((m.ep peer).refs = 0) (destroyIf dead m s) peer

/-- What the controlling task does next. -/
def proceed (n : Session) (s : Side) : Option Session :=
  match n.control s with
  | .noRead peer wr =>
    let m := match peer with
      | some peer => n.setEp peer { n.ep peer with peerNoRead := true }
      | none => n
    some (m.setControl s (if wr then .shutWr else .ready))
  | .shutWr =>
    some ((n.setEp s { n.ep s with shutWr := true }).setControl s (.noWrite (n.ep s).peer))
  | .noWrite peer =>
    let m := match peer with
      | some peer => n.setEp peer { n.ep peer with eof := true }
      | none => n
    some (m.setControl s .ready)
  | .breaking =>
    some ((n.setEp s (n.ep s).part).setControl s
      (.parted (n.ep s).peer ((n.ep s).part.refs = 0)))
  | .parted peer dead => some ((n.part s peer dead).setControl s .putting)
  | .putting =>
    let m := n.setEp s (n.ep s).drop
    some ((destroyIf ((m.ep s).refs = 0) m s).setControl s .closed)
  | .ready | .closed => none

def step (n : Session) : StreamAction → Option Session
  | .write s data => n.write s data
  | .check s => n.check s
  | .fill s => n.fill s
  | .read s size => n.read s size
  | .poll s => n.poll s
  | .shutdown s how => n.shutdown s how
  | .close s => n.close s
  | .control s => n.proceed s

/-- After `ep_link`, with a descriptor for each side. -/
def linked (s : Side) : Endpoint Side Empty :=
  { (Endpoint.alloc.link s.other) with kind := .conn, refs := 2 }

def start : Session where
  ep := linked
  writer := fun _ => .idle
  reader := fun _ => .idle
  control := fun _ => .ready
  writes := fun _ => []
  reads := fun _ => []

end Session

end CactKernel.Unix
