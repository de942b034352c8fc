import CactKernel.Lib.Ring

/-! # Endpoints of local sockets

`unix_ep_t` of `unix_sock.c`, with pointers to endpoints in `ι` and to open files in
`φ`, and what is done to one endpoint while its lock is held. The lock itself, whose
recursion count lies in the first bytes of `rx`, stands beside the endpoints in
`Unix.StreamLock`. The linked list of pending connections is the list of its members. -/

set_option autoImplicit false

namespace CactKernel.Unix

open Lib

def unixBufSize : Nat := 4096
def unixBacklog : Nat := 4

/-- `uep_kind_t`. -/
inductive Kind
  | none
  | bound
  | listen
  | conn
deriving DecidableEq

structure Endpoint (ι φ : Type) where
  kind : Kind
  used : Bool
  shutRd : Bool
  shutWr : Bool
  eof : Bool
  peerNoRead : Bool
  peer : Option ι
  refs : Nat
  rx : Ring UInt8 unixBufSize
  fdq : List φ
  backlog : Nat
  pend : List ι

namespace Endpoint

variable {ι φ : Type}

/-- `ep_alloc`. -/
def alloc : Endpoint ι φ where
  kind := .none
  used := true
  shutRd := false
  shutWr := false
  eof := false
  peerNoRead := false
  peer := none
  refs := 0
  rx := .empty (by decide) fun _ => 0
  fdq := []
  backlog := unixBacklog
  pend := []

/-- Either half of `ep_link`. -/
def link (e : Endpoint ι φ) (peer : ι) : Endpoint ι φ :=
  { e with peer := some peer, refs := e.refs + 1 }

/-- The first half of `ep_break`, on the endpoint that is closed. -/
def part (e : Endpoint ι φ) : Endpoint ι φ :=
  match e.peer with
  | some _ => { e with peer := none, refs := e.refs - 1 }
  | none => e

/-- The second half of `ep_break`, on its peer. -/
def orphan (e : Endpoint ι φ) : Endpoint ι φ :=
  { e with peer := none, eof := true, peerNoRead := true, refs := e.refs - 1 }

/-- A holder less, in `ep_put`. -/
def drop (e : Endpoint ι φ) : Endpoint ι φ := { e with refs := e.refs - 1 }

/-- What `ep_destroy` does under the lock. -/
def retire (e : Endpoint ι φ) : Endpoint ι φ := { e with used := false, peer := none, pend := [] }

/-- Bytes cannot be written to it. -/
def deaf (e : Endpoint ι φ) : Bool := !e.used || e.peerNoRead || e.shutRd

end Endpoint

end CactKernel.Unix
