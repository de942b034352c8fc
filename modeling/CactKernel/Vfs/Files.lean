import CactKernel.Lib.Worklist

/-! # Open files and descriptors

`vfs_file.c`, the descriptor calls of `fd.c` and `fd_mux.c`, what `task_fork`,
`task_exec` and `reap_task_free` do to a descriptor table, and the passing of
descriptors over connected unix sockets.

Objects are named by their place in a list that only grows, so a name is never
used twice. `file_unref` reaches itself again when it closes a socket whose
queue holds the last reference to other files; the calls in between are the
`Work` of a worklist. Whether `kmalloc` has memory is an argument of the calls
that can fail for want of it. -/

set_option autoImplicit false

namespace CactKernel.Vfs

def maxFd : Nat := 256
def unixFdQueueMax : Nat := 16

def eBadF : Int := 9
def eAgain : Int := 11
def eFault : Int := 14
def eInval : Int := 22
def eMFile : Int := 24
def ePipe : Int := 32
def eNotSock : Int := 88

def openAccmode : Nat := 0x0003
def openWronly : Nat := 0x0001
def openRdwr : Nat := 0x0002
def openTrunc : Nat := 0x0200

/-- Nodes found by a path or made by `memfd_create`, the two ends of a pipe, and
the node of a socket. -/
inductive Node
  | named (id : Nat)
  | pipeEnd (pipe : Nat) (write : Bool)
  | socket (endpoint : Nat)
deriving DecidableEq

/-- `file_t`. -/
structure File where
  node : Node
  flags : Nat
  cloexec : Bool
  refcount : Nat
deriving DecidableEq

/-- A connected `unix_ep_t`; `attached` says that the node still names it in `priv`. -/
structure Endpoint where
  used : Bool
  attached : Bool
  peer : Option Nat
  refs : Nat
  fdq : List Nat

structure Proc where
  zombie : Bool
  files : List (Option Nat)

structure Kernel where
  objects : List (Option File)
  opens : Node → Nat
  closes : Node → Nat
  endpoints : List Endpoint
  pipes : Nat
  procs : List (Option Proc)

namespace Kernel

def openVfs (k : Kernel) (node : Node) : Kernel :=
  { k with opens := Function.update k.opens node (k.opens node + 1) }

def closeVfs (k : Kernel) (node : Node) : Kernel :=
  { k with closes := Function.update k.closes node (k.closes node + 1) }

def object (k : Kernel) (f : Nat) : Option File := k.objects[f]?.join

def setObject (k : Kernel) (f : Nat) (x : Option File) : Kernel :=
  { k with objects := k.objects.set f x }

/-- The new file comes last. -/
def fileAlloc (k : Kernel) (node : Node) (flags : Nat) : Kernel :=
  ({ k with objects := k.objects ++ [some ⟨node, flags, false, 1⟩] } : Kernel).openVfs node

def fileRef (k : Kernel) (f : Nat) : Kernel :=
  match k.object f with
  | some file => k.setObject f (some { file with refcount := file.refcount + 1 })
  | none => k

end Kernel

/-! ## Dropping a reference -/

/-- Calls of `file_unref`, `unix_node_close`, `ep_break`, `ep_put` and `ep_destroy`. -/
inductive Work
  | unref (f : Nat)
  | close (e : Nat)
  | breakLink (e : Nat)
  | put (e : Nat)
  | destroy (e : Nat)

/-- What closing a node calls. -/
def Node.closing : Node → List Work
  | .socket e => [.close e]
  | .named _ => []
  | .pipeEnd _ _ => []

namespace Kernel

def setEndpoint (k : Kernel) (e : Nat) (x : Endpoint) : Kernel :=
  { k with endpoints := k.endpoints.set e x }

def endpoint (k : Kernel) (e : Nat) : Endpoint :=
  (k.endpoints[e]?).getD ⟨false, false, none, 0, []⟩

def destroyIfDead (refs : Nat) (e : Nat) : List Work :=
  if refs = 0 then [.destroy e] else []

/-- `file_unref`; the object is gone as soon as `file_free` begins, since nothing
reads it any more. -/
def fileUnref (f : Nat) (k : Kernel) : List Work × Kernel :=
  match k.object f with
  | none => ([], k)
  | some file =>
    if file.refcount = 0 then ([], k)
    else if file.refcount = 1 then
      (file.node.closing, (k.setObject f none).closeVfs file.node)
    else ([], k.setObject f (some { file with refcount := file.refcount - 1 }))

def unixNodeClose (e : Nat) (k : Kernel) : List Work × Kernel :=
  let ep := k.endpoint e
  let released := k.setEndpoint e { ep with attached := false }
  if ep.attached && ep.used then
    -- unix_node_close_conn
    ((if ep.peer.isSome then [.breakLink e] else []) ++ [.put e], released)
  else ([], released)

/-- The side of the peer: its pointer goes and so does the hold on it. -/
def dropPeer (k : Kernel) (q : Nat) : Kernel :=
  k.setEndpoint q { k.endpoint q with peer := none, refs := (k.endpoint q).refs - 1 }

def epBreak (e : Nat) (k : Kernel) : List Work × Kernel :=
  let ep := k.endpoint e
  match ep.peer with
  | none => (destroyIfDead ep.refs e, k)
  | some q =>
    let alone := (k.dropPeer e).dropPeer q
    (destroyIfDead (ep.refs - 1) e ++ destroyIfDead (alone.endpoint q).refs q, alone)

def epPut (e : Nat) (k : Kernel) : List Work × Kernel :=
  let ep := k.endpoint e
  (destroyIfDead (ep.refs - 1) e, k.setEndpoint e { ep with refs := ep.refs - 1 })

def epDestroy (e : Nat) (k : Kernel) : List Work × Kernel :=
  let ep := k.endpoint e
  if ep.used then
    let dead := k.setEndpoint e { ep with used := false, peer := none, fdq := [] }
    match ep.peer with
    | none => (ep.fdq.map .unref, dead)
    | some q =>
      let alone := dead.dropPeer q
      (destroyIfDead (alone.endpoint q).refs q ++ ep.fdq.map .unref, alone)
  else ([], k)

def call : Work → Kernel → List Work × Kernel
  | .unref f => fileUnref f
  | .close e => unixNodeClose e
  | .breakLink e => epBreak e
  | .put e => epPut e
  | .destroy e => epDestroy e

end Kernel

/-- Every call makes only calls that weigh less, but for an endpoint that it ends. -/
def Work.weight : Work → Nat
  | .unref _ => 7
  | .close _ => 6
  | .breakLink _ => 3
  | .put _ => 2
  | .destroy _ => 1

def Endpoint.weight (ep : Endpoint) : Nat := if ep.used then 2 + 7 * ep.fdq.length else 0

inductive Fcntl
  | dupFd (start : Nat)
  | getFd
  | setFd (cloexec : Bool)

namespace Kernel

def weight (todo : List Work) (k : Kernel) : Nat :=
  (todo.map Work.weight).sum + (k.endpoints.map Endpoint.weight).sum

def release (todo : List Work) (k : Kernel) : Kernel :=
  (Lib.settle call (weight todo k) todo k).getD k

/-! ## The calls on descriptors -/

def files (k : Kernel) (p : Nat) : List (Option Nat) :=
  match k.procs[p]?.join with
  | some proc => proc.files
  | none => []

def getFile (k : Kernel) (p fd : Nat) : Option Nat := (k.files p)[fd]?.join

def setFiles (k : Kernel) (p : Nat) (files : List (Option Nat)) : Kernel :=
  match k.procs[p]?.join with
  | some proc => { k with procs := k.procs.set p (some { proc with files := files }) }
  | none => k

def setFd (k : Kernel) (p fd : Nat) (x : Option Nat) : Kernel :=
  k.setFiles p ((k.files p).set fd x)

/-- The first empty slot from `start` on. -/
def freeSlot (files : List (Option Nat)) (start : Nat) : Option Nat :=
  ((files.drop start).findIdx? Option.isNone).map (start + ·)

def allocFd (k : Kernel) (p : Nat) (node : Node) (heap : Bool) : Option Nat × Kernel :=
  if heap then
    let f := k.objects.length
    let made := k.fileAlloc node 0
    match freeSlot (made.files p) 3 with
    | some i => (some i, made.setFd p i (some f))
    | none => (none, made.release [.unref f])
  else (none, k)

/-- `sys_open` from the point where the path names a node and the permission check
passed; `truncated` is what `truncate_vfs` answers. -/
def sysOpen (k : Kernel) (p : Nat) (node : Node) (flags : Nat) (heap truncated : Bool) :
    Int × Kernel :=
  if heap then
    let f := k.objects.length
    let made := k.fileAlloc node flags
    match freeSlot (made.files p) 3 with
    | some i =>
      let filled := made.setFd p i (some f)
      let acc := flags &&& openAccmode
      if flags &&& openTrunc ≠ 0 ∧ (acc = openWronly ∨ acc = openRdwr) ∧ truncated = false then
        (-1, (filled.setFd p i none).release [.unref f])
      else (i, filled)
    | none => (-1, made.release [.unref f])
  else (-1, k)

def sysClose (k : Kernel) (p fd : Nat) : Int × Kernel :=
  match k.getFile p fd with
  | none => (-1, k)
  | some f => (0, (k.setFd p fd none).release [.unref f])

/-- `F_DUPFD`; `sys_dup` is the same search from slot 0. -/
def dupFrom (k : Kernel) (p fd start : Nat) : Int × Kernel :=
  match k.getFile p fd with
  | none => (-1, k)
  | some f =>
    match freeSlot (k.files p) start with
    | some i => (i, (k.fileRef f).setFd p i (some f))
    | none => (-1, k)

def sysDup (k : Kernel) (p fd : Nat) : Int × Kernel := k.dupFrom p fd 0

/-- The `dup2` command of `_fdctl_handle`. -/
def fdctlDup2 (k : Kernel) (p fd newfd : Nat) : Int × Kernel :=
  match k.getFile p fd with
  | none => (-eBadF, k)
  | some f =>
    if newfd ≥ maxFd then (-eBadF, k)
    else if fd = newfd then (newfd, k)
    else
      let shared := (k.fileRef f).setFd p newfd (some f)
      match k.getFile p newfd with
      | some old => (newfd, shared.release [.unref old])
      | none => (newfd, shared)

def sysFcntl (k : Kernel) (p fd : Nat) : Fcntl → Int × Kernel
  | .dupFd start => if start ≥ maxFd then (-1, k) else k.dupFrom p fd start
  | .getFd =>
    match (k.getFile p fd).bind k.object with
    | some file => (if file.cloexec then 1 else 0, k)
    | none => (-1, k)
  | .setFd cloexec =>
    match k.getFile p fd with
    | none => (-1, k)
    | some f =>
      match k.object f with
      | some file => (0, k.setObject f (some { file with cloexec := cloexec }))
      | none => (-1, k)

/-- What is freed when one of the two files could not be made; the nodes are then
closed once more. -/
def pipeUndo (k : Kernel) (pipe : Nat) (rf wf : Option Nat) : Kernel :=
  let k := match rf with
    | some f => k.release [.unref f]
    | none => k
  let k := match wf with
    | some f => k.release [.unref f]
    | none => k
  (k.closeVfs (.pipeEnd pipe false)).closeVfs (.pipeEnd pipe true)

def sysPipe (k : Kernel) (p : Nat) (heapRead heapWrite : Bool) : Int × Kernel :=
  let pipe := k.pipes
  let k := { k with pipes := k.pipes + 1 }
  let rf := k.objects.length
  let k := if heapRead then k.fileAlloc (.pipeEnd pipe false) 0 else k
  let wf := k.objects.length
  let k := if heapWrite then k.fileAlloc (.pipeEnd pipe true) 0 else k
  if heapRead && heapWrite then
    match freeSlot (k.files p) 3 with
    | none => (-1, (k.release [.unref rf]).release [.unref wf])
    | some rfd =>
      match freeSlot (k.files p) (rfd + 1) with
      | none => (-1, (k.release [.unref rf]).release [.unref wf])
      | some wfd => (0, (k.setFd p rfd (some rf)).setFd p wfd (some wf))
  else
    (-1, k.pipeUndo pipe (if heapRead then some rf else none) (if heapWrite then some wf else none))

/-! ## Sockets -/

/-- `ep_link` and `unix_make_node`: each endpoint is held by its node and by its peer. -/
def socketNodes (k : Kernel) : Kernel :=
  let a := k.endpoints.length
  { k with
    endpoints := k.endpoints ++ [⟨true, true, some (a + 1), 2, []⟩, ⟨true, true, some a, 2, []⟩] }

/-- A call of `unix_node_close` past the operations table. -/
def closeSocketNode (k : Kernel) (e : Nat) : Kernel :=
  (k.closeVfs (.socket e)).release [.close e]

def unixSocketpair (k : Kernel) (p : Nat) (heapA heapB : Bool) : Int × Kernel :=
  let a := k.endpoints.length
  let b := a + 1
  match k.socketNodes.allocFd p (.socket a) heapA with
  | (none, k) => (-eMFile, (k.closeSocketNode a).closeSocketNode b)
  | (some fa, k) =>
    match k.allocFd p (.socket b) heapB with
    | (none, k) =>
      let k := k.closeSocketNode b
      match k.getFile p fa with
      | some f => (-eMFile, (k.setFd p fa none).release [.unref f])
      | none => (-eMFile, k)
    | (some _, k) => (0, k)

/-- `ep_from_node` of the node behind a descriptor. -/
def socketOf (k : Kernel) (p fd : Nat) : Option Nat :=
  match (k.getFile p fd).bind k.object with
  | some file =>
    match file.node with
    | .socket e => if (k.endpoint e).attached && (k.endpoint e).used then some e else none
    | _ => none
  | none => none

def unrefAll (files : List Nat) (k : Kernel) : Kernel :=
  files.foldl (fun k f => k.release [.unref f]) k

/-- The files to pass are held one by one; the first bad descriptor drops them again. -/
def holdFiles (p : Nat) : List Nat → List Nat → Kernel → Except Kernel (List Nat × Kernel)
  | [], held, k => .ok (held, k)
  | fd :: fds, held, k =>
    match k.getFile p fd with
    | some f => holdFiles p fds (held ++ [f]) (k.fileRef f)
    | none => .error (k.unrefAll held)

def unixSendmsg (k : Kernel) (p fd : Nat) (fds : List Nat) : Int × Kernel :=
  match k.socketOf p fd with
  | none => (-eNotSock, k)
  | some e =>
    if fds.length > unixFdQueueMax then (-eInval, k)
    else
      match k.holdFiles p fds [] with
      | .error k => (-eBadF, k)
      | .ok (held, k) =>
        match (k.endpoint e).peer with
        | none => (-ePipe, k.unrefAll held)
        | some q =>
          -- ep_fdq_push
          let peer := k.endpoint q
          if peer.fdq.length + held.length > unixFdQueueMax then (-eAgain, k.unrefAll held)
          else (0, k.setEndpoint q { peer with fdq := peer.fdq ++ held })

/-- Each file taken from the queue goes to the first empty slot. -/
def installFiles (p : Nat) : List Nat → Kernel → Kernel
  | [], k => k
  | f :: rest, k =>
    match freeSlot (k.files p) 3 with
    | some slot => installFiles p rest (k.setFd p slot (some f))
    | none => installFiles p rest (k.release [.unref f])

/-- The descriptors of a message; `payload` says that its bytes could be copied to
the caller, without which the call ends first. -/
def unixRecvmsg (k : Kernel) (p fd cap : Nat) (payload : Bool) : Int × Kernel :=
  match k.socketOf p fd with
  | none => (-eNotSock, k)
  | some e =>
    if cap > unixFdQueueMax then (-eInval, k)
    else if payload = false then (-eFault, k)
    else
      let ep := k.endpoint e
      let freeSlots := ((k.files p).drop 3).countP Option.isNone
      let want := min (min cap ep.fdq.length) freeSlots
      let popped := k.setEndpoint e { ep with fdq := ep.fdq.drop want }
      (0, popped.installFiles p (ep.fdq.take want))

/-! ## Processes -/

def spawn (k : Kernel) : Kernel :=
  { k with procs := k.procs ++ [some ⟨false, List.replicate maxFd none⟩] }

/-- The files that a table names, slot by slot. -/
def openFiles (files : List (Option Nat)) : List Nat := files.filterMap id

def refFiles (files : List Nat) (k : Kernel) : Kernel := files.foldl fileRef k

def openNodes (files : List Nat) (k : Kernel) : Kernel :=
  files.foldl (fun k f => match k.object f with
    | some file => k.openVfs file.node
    | none => k) k

/-- `task_fork`: every file of the table gains a reference, and when the child is
made its node is opened as well. The table made for the child is freed again
when there is no memory for its mmap table. -/
def taskFork (k : Kernel) (p : Nat) (heap : Bool) : Kernel :=
  let table := k.files p
  let shared := k.refFiles (openFiles table)
  if heap then
    ({ shared with procs := shared.procs ++ [some ⟨false, table⟩] } : Kernel).openNodes
      (openFiles table)
  else shared

def closeOnExec (p : Nat) (k : Kernel) (fd : Nat) : Kernel :=
  match k.getFile p fd with
  | none => k
  | some f =>
    match k.object f with
    | some file => if file.cloexec then (k.release [.unref f]).setFd p fd none else k
    | none => k

/-- The part of `task_exec` that succeeds. -/
def taskExec (k : Kernel) (p : Nat) : Kernel :=
  (List.range' 3 (maxFd - 3)).foldl (closeOnExec p) k

def setProc (k : Kernel) (p : Nat) (x : Option Proc) : Kernel :=
  { k with procs := k.procs.set p x }

/-- `reap_task_free`. -/
def reap (k : Kernel) (p : Nat) : Kernel :=
  (k.unrefAll (openFiles (k.files p))).setProc p none

end Kernel

/-! ## Runs -/

inductive Call
  | spawn
  | openNode (node : Nat) (flags : Nat) (heap truncated : Bool)
  | close (fd : Nat)
  | dup (fd : Nat)
  | dup2 (fd newfd : Nat)
  | fcntl (fd : Nat) (cmd : Fcntl)
  | pipe (heapRead heapWrite : Bool)
  | socketpair (heapA heapB : Bool)
  | sendmsg (fd : Nat) (fds : List Nat)
  | recvmsg (fd cap : Nat) (payload : Bool)
  | fork (heap : Bool)
  | exec
  | exit

/-- A process makes a call, or the reaper frees a process that has exited. -/
inductive Action
  | call (p : Nat) (c : Call)
  | reap (p : Nat)

namespace Kernel

def perform (k : Kernel) (p : Nat) : Call → Kernel
  | .spawn => k.spawn
  | .openNode node flags heap truncated => (k.sysOpen p (.named node) flags heap truncated).2
  | .close fd => (k.sysClose p fd).2
  | .dup fd => (k.sysDup p fd).2
  | .dup2 fd newfd => (k.fdctlDup2 p fd newfd).2
  | .fcntl fd cmd => (k.sysFcntl p fd cmd).2
  | .pipe heapRead heapWrite => (k.sysPipe p heapRead heapWrite).2
  | .socketpair heapA heapB => (k.unixSocketpair p heapA heapB).2
  | .sendmsg fd fds => (k.unixSendmsg p fd fds).2
  | .recvmsg fd cap payload => (k.unixRecvmsg p fd cap payload).2
  | .fork heap => k.taskFork p heap
  | .exec => k.taskExec p
  | .exit => k.setProc p ((k.procs[p]?.join).map fun proc => { proc with zombie := true })

def step (k : Kernel) : Action → Option Kernel
  | .call p c =>
    match k.procs[p]?.join with
    | some proc => if proc.zombie then none else some (k.perform p c)
    | none => none
  | .reap p =>
    match k.procs[p]?.join with
    | some proc => if proc.zombie then some (k.reap p) else none
    | none => none

/-- One process with an empty table. -/
def init : Kernel :=
  { objects := [], opens := fun _ => 0, closes := fun _ => 0, endpoints := [], pipes := 0,
    procs := [some ⟨false, List.replicate maxFd none⟩] }

/-! ## What is counted -/

/-- Slots of all descriptor tables that hold the file. -/
def slots (k : Kernel) (f : Nat) : Nat :=
  (k.procs.map fun
    | some proc => proc.files.count (some f)
    | none => 0).sum

/-- Entries for the file in the queues of the endpoints in use. -/
def queued (k : Kernel) (f : Nat) : Nat :=
  (k.endpoints.map fun ep => if ep.used then ep.fdq.count f else 0).sum

def live (k : Kernel) (node : Node) : Nat :=
  (k.objects.map fun
    | some file => if file.node = node then 1 else 0
    | none => 0).sum

structure Balanced (k : Kernel) : Prop where
  opens : ∀ node, k.opens node = k.closes node + k.live node
  refs : ∀ f file, k.object f = some file → file.refcount = k.slots f + k.queued f

end Kernel

end CactKernel.Vfs
