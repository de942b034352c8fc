import CactKernel.Vfs.Descriptions

/-! # Pipes

`pipe.c` and the two callers of `pipe_create`, over the descriptions of one
process. A pipe has one node for each end; `readOpen` and `writeOpen` are set by
`pipe_create`, raised by the open hook that `file_alloc` runs and lowered by the
close hook. -/

set_option autoImplicit false

namespace CactKernel.Vfs

def pipeBufSize : Nat := 4096

/-- `pipe_t`. -/
structure Pipe where
  buf : Nat → UInt8
  readPos : Nat
  writePos : Nat
  len : Nat
  readOpen : Nat
  writeOpen : Nat
  refCount : Nat
  nonblock : Bool

/-- A pipe and the reference counts of its two nodes; `none` is freed. -/
structure PipeEntry where
  body : Option Pipe
  nodeRefs : Bool → Option Nat

abbrev Pipes := List PipeEntry

inductive PipeNode
  | pipeEnd (pipe : Nat) (write : Bool)
  | other
deriving DecidableEq

/-! ## The ring -/

/-- What a call of `pipe_read` or `pipe_write` comes to; `blocked` is a call of `schedule`. -/
inductive Outcome
  | returned (n : Int)
  | blocked
deriving DecidableEq

namespace Pipe

def slice (buf : Nat → UInt8) (start n : Nat) : List UInt8 :=
  (List.range n).map fun k => buf (start + k)

def store (buf : Nat → UInt8) (start : Nat) (bytes : List UInt8) : Nat → UInt8 := fun i =>
  if start ≤ i ∧ i < start + bytes.length then bytes.getD (i - start) 0 else buf i

def take (p : Pipe) (chunk : Nat) : List UInt8 × Pipe :=
  let toEnd := pipeBufSize - p.readPos
  let bytes :=
    if chunk ≤ toEnd then slice p.buf p.readPos chunk
    else slice p.buf p.readPos toEnd ++ slice p.buf 0 (chunk - toEnd)
  (bytes, { p with readPos := (p.readPos + chunk) % pipeBufSize, len := p.len - chunk })

def put (p : Pipe) (bytes : List UInt8) : Pipe :=
  let toEnd := pipeBufSize - p.writePos
  let buf :=
    if bytes.length ≤ toEnd then store p.buf p.writePos bytes
    else store (store p.buf p.writePos (bytes.take toEnd)) 0 (bytes.drop toEnd)
  { p with
    buf := buf
    writePos := (p.writePos + bytes.length) % pipeBufSize
    len := p.len + bytes.length }

def readLoop (size : Nat) : Nat → List UInt8 → Pipe → Option (Outcome × List UInt8 × Pipe)
  | 0, _, _ => none
  | rounds + 1, copied, p =>
    if copied.length < size then
      if p.len = 0 then
        if p.writeOpen = 0 then some (.returned copied.length, copied, p)
        else if p.nonblock then
          some (.returned (if copied = [] then -eAgain else copied.length), copied, p)
        else some (.blocked, copied, p)
      else
        let (bytes, p) := p.take (min (size - copied.length) p.len)
        readLoop size rounds (copied ++ bytes) p
    else some (.returned copied.length, copied, p)

def pipeRead (p : Pipe) (size : Nat) : Option (Outcome × List UInt8 × Pipe) :=
  if size = 0 then some (.returned (-1), [], p) else readLoop size (size + 1) [] p

def writeLoop : Nat → Nat → List UInt8 → Pipe → Option (Outcome × Pipe)
  | 0, _, _, _ => none
  | rounds + 1, written, left, p =>
    if left = [] then some (.returned written, p)
    else if p.readOpen = 0 then some (.returned (if written = 0 then -ePipe else written), p)
    else if p.len = pipeBufSize then
      if p.nonblock then some (.returned (if written = 0 then -eAgain else written), p)
      else some (.blocked, p)
    else
      let chunk := min left.length (pipeBufSize - p.len)
      writeLoop rounds (written + chunk) (left.drop chunk) (p.put (left.take chunk))

def pipeWrite (p : Pipe) (data : List UInt8) : Option (Outcome × Pipe) :=
  if data = [] then some (.returned (-1), p)
  else if p.readOpen = 0 then some (.returned (-ePipe), p)
  else writeLoop (data.length + 1) 0 data p

/-! ## The hooks -/

def opened (write : Bool) (p : Pipe) : Pipe :=
  if write then { p with refCount := p.refCount + 1, writeOpen := p.writeOpen + 1 }
  else { p with refCount := p.refCount + 1, readOpen := p.readOpen + 1 }

def closed (write : Bool) (p : Pipe) : Pipe :=
  if write then { p with refCount := p.refCount - 1, writeOpen := p.writeOpen - 1 }
  else { p with refCount := p.refCount - 1, readOpen := p.readOpen - 1 }

end Pipe

namespace PipeEntry

/-- `_vfs_pipe_open`. -/
def open_ (write : Bool) (e : PipeEntry) : PipeEntry :=
  match e.body with
  | none => e
  | some p =>
    ⟨some (p.opened write), Function.update e.nodeRefs write ((e.nodeRefs write).map (· + 1))⟩

/-- The node of an end loses a reference. -/
def dropNode (write : Bool) (e : PipeEntry) : Bool → Option Nat :=
  Function.update e.nodeRefs write
    ((e.nodeRefs write).bind fun refs => if refs ≤ 1 then none else some (refs - 1))

/-- `_vfs_pipe_close`. -/
def close (write : Bool) (e : PipeEntry) : PipeEntry :=
  match e.body with
  | none => ⟨none, e.dropNode write⟩
  | some p =>
    let p := p.closed write
    ⟨if p.refCount = 0 then none else some p, e.dropNode write⟩

end PipeEntry

def pipeHooks : Hooks PipeNode Pipes where
  onOpen
    | .pipeEnd i write, s => s.modify i (·.open_ write)
    | .other, s => s
  onClose
    | .pipeEnd i write, s => some (s.modify i (·.close write))
    | .other, s => some s

/-! ## Making a pipe -/

/-- Which of the allocations on the way to a pipe succeed. -/
structure PipeHeap where
  pipe : Bool
  readNode : Bool
  writeNode : Bool
  readFile : Bool
  writeFile : Bool
deriving DecidableEq

/-- After `pipe_create`: both counters are 1, and each node counts once. -/
def PipeEntry.fresh : PipeEntry where
  body := some
    { buf := fun _ => 0, readPos := 0, writePos := 0, len := 0, readOpen := 1, writeOpen := 1,
      refCount := 2, nonblock := false }
  nodeRefs := fun _ => some 1

abbrev PipeFiles := OpenFiles PipeNode Pipes

namespace PipeFiles

/-- What is done when one of the two files could not be made. -/
def undo (i rf wf : Nat) (heap : PipeHeap) (w : PipeFiles) : Option PipeFiles := do
  let w ← if heap.readFile then w.fileUnref pipeHooks rf else some w
  let w ← if heap.writeFile then w.fileUnref pipeHooks wf else some w
  let sys ← pipeHooks.onClose (.pipeEnd i false) w.sys
  let sys ← pipeHooks.onClose (.pipeEnd i true) sys
  some { w with sys := sys }

/-- Both files are there; they go to the first two free slots. -/
def install (rf wf : Nat) (w : PipeFiles) : Option PipeFiles :=
  let slots := (Kernel.freeSlot w.fds 3).bind fun rfd =>
    (Kernel.freeSlot w.fds (rfd + 1)).map fun wfd => (rfd, wfd)
  match slots with
  | some (rfd, wfd) => some ((w.setFd rfd (some rf)).setFd wfd (some wf))
  | none => do
    let w ← w.fileUnref pipeHooks rf
    w.fileUnref pipeHooks wf

/-- `sys_pipe`, and `CACT_PIPECTL_CREATE` of `/dev/pipe`. -/
def sysPipe (w : PipeFiles) (heap : PipeHeap) : Option PipeFiles :=
  if heap.pipe && heap.readNode && heap.writeNode then
    let i := w.sys.length
    let w := { w with sys := w.sys ++ [.fresh] }
    let rf := w.files.length
    let w := if heap.readFile then w.fileAlloc pipeHooks (.pipeEnd i false) else w
    let wf := w.files.length
    let w := if heap.writeFile then w.fileAlloc pipeHooks (.pipeEnd i true) else w
    if heap.readFile && heap.writeFile then install rf wf w else undo i rf wf heap w
  else some w

/-- The pipe behind a descriptor. -/
def pipeOf (w : PipeFiles) (fd : Nat) : Option (Nat × Pipe) := do
  let f ← w.getFile fd
  let d ← w.file f
  match d.node with
  | .pipeEnd i _ => do
    let e ← w.sys[i]?
    let p ← e.body
    some (i, p)
  | .other => none

def setPipe (w : PipeFiles) (i : Nat) (p : Pipe) : PipeFiles :=
  { w with sys := w.sys.modify i fun e => { e with body := some p } }

def read (w : PipeFiles) (fd size : Nat) : Option PipeFiles :=
  match w.pipeOf fd with
  | none => some w
  | some (i, p) => (p.pipeRead size).map fun answer => w.setPipe i answer.2.2

def write (w : PipeFiles) (fd : Nat) (data : List UInt8) : Option PipeFiles :=
  match w.pipeOf fd with
  | none => some w
  | some (i, p) => (p.pipeWrite data).map fun answer => w.setPipe i answer.2

end PipeFiles

inductive PipeAction
  | pipe (heap : PipeHeap)
  | open_ (heap : Bool)
  | share (a : Share)
  | read (fd size : Nat)
  | write (fd : Nat) (data : List UInt8)

namespace PipeFiles

def step (w : PipeFiles) : PipeAction → Option PipeFiles
  | .pipe heap => w.sysPipe heap
  | .open_ heap => (w.allocFd pipeHooks .other heap).map Prod.snd
  | .share a => w.share pipeHooks a
  | .read fd size => w.read fd size
  | .write fd data => w.write fd data

def start : PipeFiles := ⟨[], List.replicate maxFd none, [], []⟩

end PipeFiles

/-! ## The law of the counters -/

/-- The counters are the live descriptions of the two ends, so that a reader sees the end of
the data and a writer that nobody reads. -/
structure Faithful (w : PipeFiles) : Prop where
  counters : ∀ i e p, w.sys[i]? = some e → e.body = some p →
    p.readOpen = w.live (.pipeEnd i false) ∧ p.writeOpen = w.live (.pipeEnd i true)
  endOfFile : ∀ i e p, w.sys[i]? = some e → e.body = some p →
    w.live (.pipeEnd i true) = 0 → p.len = 0 →
    ∀ size, 0 < size → p.pipeRead size = some (.returned 0, [], p)
  brokenPipe : ∀ i e p, w.sys[i]? = some e → e.body = some p →
    w.live (.pipeEnd i false) = 0 →
    ∀ data, data ≠ [] → p.pipeWrite data = some (.returned (-ePipe), p)

/-- A call that gets both its files; whether it finds two slots does not matter. -/
def MakesPipe : PipeAction → Prop
  | .pipe heap => heap = ⟨true, true, true, true, true⟩
  | _ => False

end CactKernel.Vfs
