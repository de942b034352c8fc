import CactKernel.Lib.Reach

/-! # The page cache

`pagecache.c` for any number of tasks. Pages are indices into the pool; the links of
the hash chains and of the LRU list are fields seen one at a time. A step goes from
one release of the cache lock to the next one at most: what a task does without the
lock is a step of its own, and so is each round of a loop that gives up the lock.
Pin counts are an `int` in the source and do not overflow here: each is at most the number
of tasks that work on the page or hold it. The size of a device, `maxLba`, is the same
during a whole run.

The loops that follow links run on fuel; `none` is a loop that goes on for ever. -/

set_option autoImplicit false

namespace CactKernel.PageCache

open Function

def pcMaxPages : Nat := 256
def pcMaxBlockSize : Nat := 4096
def pcHashSize : UInt32 := 64

/-- `(dev, block_no)`. -/
structure Key where
  dev : UInt32
  blockNo : UInt32
deriving DecidableEq

/-- `struct page` without its links; `data` is the number of a buffer. -/
structure Page where
  key : Key
  blockSize : UInt32
  valid : Bool
  dirty : Bool
  used : Bool
  pin : Nat
  data : Option Nat
deriving DecidableEq

structure Cache where
  page : Nat → Page
  hashTable : Nat → Option Nat
  hashNext : Nat → Option Nat
  lruPrev : Nat → Option Nat
  lruNext : Nat → Option Nat
  lruHead : Option Nat
  lruTail : Option Nat

def hash (k : Key) : Nat :=
  let h := k.dev ^^^ k.blockNo
  let h := h ^^^ (h >>> 16)
  let h := h * 0x45d9f3b
  let h := h ^^^ (h >>> 16)
  (h &&& (pcHashSize - 1)).toNat

namespace Cache

def setPage (c : Cache) (p : Nat) (x : Page) : Cache :=
  { c with page := update c.page p x }

/-! ## The hash table -/

def hashFindFrom (c : Cache) (k : Key) : Nat → Option Nat → Option (Option Nat)
  | _, none => some none
  | 0, some _ => none
  | fuel + 1, some p =>
    if (c.page p).key = k then some (some p) else hashFindFrom c k fuel (c.hashNext p)

def hashFind (c : Cache) (k : Key) : Option (Option Nat) :=
  c.hashFindFrom k pcMaxPages (c.hashTable (hash k))

/-- `*pp = v`, where `pp` points into the table or into the page before. -/
def setSlot (c : Cache) (bucket : Nat) (before v : Option Nat) : Cache :=
  match before with
  | none => { c with hashTable := update c.hashTable bucket v }
  | some q => { c with hashNext := update c.hashNext q v }

def hashRemoveFrom (c : Cache) (bucket p : Nat) : Nat → Option Nat → Option Nat → Option Cache
  | _, _, none => some c
  | 0, _, some _ => none
  | fuel + 1, before, some q =>
    if q = p then
      let c := c.setSlot bucket before (c.hashNext p)
      some { c with hashNext := update c.hashNext p none }
    else hashRemoveFrom c bucket p fuel (some q) (c.hashNext q)

def hashRemove (c : Cache) (p : Nat) : Option Cache :=
  let bucket := hash (c.page p).key
  c.hashRemoveFrom bucket p pcMaxPages none (c.hashTable bucket)

def hashInsert (c : Cache) (p : Nat) : Cache :=
  let bucket := hash (c.page p).key
  { c with
    hashNext := update c.hashNext p (c.hashTable bucket)
    hashTable := update c.hashTable bucket (some p) }

/-! ## The LRU list -/

def lruRemove (c : Cache) (p : Nat) : Cache :=
  let c := match c.lruPrev p with
    | some q => { c with lruNext := update c.lruNext q (c.lruNext p) }
    | none => { c with lruHead := c.lruNext p }
  let c := match c.lruNext p with
    | some q => { c with lruPrev := update c.lruPrev q (c.lruPrev p) }
    | none => { c with lruTail := c.lruPrev p }
  { c with
    lruPrev := update c.lruPrev p none
    lruNext := update c.lruNext p none }

/-- A page that is on no list, at the head. -/
def lruPush (c : Cache) (p : Nat) : Cache :=
  let c := { c with
    lruPrev := update c.lruPrev p none
    lruNext := update c.lruNext p c.lruHead }
  let c := match c.lruHead with
    | some q => { c with lruPrev := update c.lruPrev q (some p) }
    | none => c
  let c := { c with lruHead := some p }
  if c.lruTail = none then { c with lruTail := some p } else c

def lruTouch (c : Cache) (p : Nat) : Cache :=
  if c.lruHead = some p then c
  else if c.lruPrev p ≠ none ∨ c.lruNext p ≠ none ∨ c.lruTail = some p then
    (c.lruRemove p).lruPush p
  else c.lruPush p

/-! ## Pages -/

/-- `flags = 0; pin_count = 0`. -/
def clear (c : Cache) (p : Nat) : Cache :=
  c.setPage p { c.page p with valid := false, dirty := false, used := false, pin := 0 }

/-- `_writeback`, whose three ways out all leave the page clean. -/
def writeback (c : Cache) (p : Nat) : Cache :=
  if (c.page p).dirty then c.setPage p { c.page p with dirty := false } else c

def pin (c : Cache) (p : Nat) : Cache := c.setPage p { c.page p with pin := (c.page p).pin + 1 }

def unpin (c : Cache) (p : Nat) : Cache := c.setPage p { c.page p with pin := (c.page p).pin - 1 }

/-- `_lru_remove; _hash_remove; flags = 0; pin_count = 0`. -/
def remove (c : Cache) (p : Nat) : Option Cache :=
  ((c.lruRemove p).hashRemove p).map fun c => c.clear p

def evictFrom (c : Cache) : Nat → Option Nat → Option (Option Nat × Cache)
  | _, none => some (none, c)
  | 0, some _ => none
  | fuel + 1, some p =>
    if (c.page p).pin = 0 then ((c.writeback p).remove p).map fun c => (some p, c)
    else evictFrom c fuel (c.lruPrev p)

def evictOne (c : Cache) : Option (Option Nat × Cache) := c.evictFrom pcMaxPages c.lruTail

def allocPage (c : Cache) : Option (Option Nat × Cache) :=
  match (List.range pcMaxPages).find? fun i => !(c.page i).used with
  | some i => some (some i, c)
  | none => c.evictOne

/-- A removed page also loses its buffer. -/
def detach (c : Cache) (p : Nat) : Option (Option Nat × Cache) :=
  (c.remove p).map fun c => ((c.page p).data, c.setPage p { c.page p with data := none })

end Cache

/-! ## Tasks -/

inductive Stage
  | opened
  | writing
  | written
deriving DecidableEq

/-- What comes after a write-back. -/
inductive After
  | done
  /-- The loop of `pc_flush_dev`; `sweep` is the call from `pc_invalidate_dev`. -/
  | flush (dev : UInt32) (i : Nat) (sweep : Bool)
  /-- The rest of `pc_invalidate_block`. -/
  | remove
deriving DecidableEq

/-- Where a task stands. -/
inductive Pc
  | idle
  /-- The block is not cached. -/
  | missed (k : Key) (size : UInt32)
  /-- Has a page of its own, perhaps without a buffer. -/
  | slot (k : Key) (p : Nat)
  /-- `kalloc` failed. -/
  | noMemory (p : Nat)
  /-- The block is read. -/
  | filled (k : Key) (p : Nat)
  /-- Another task was faster. -/
  | beaten (k : Key) (p existing : Nat)
  /-- Has a pinned page to return. -/
  | found (k : Key) (p : Nat)
  | writeback (p : Nat) (stage : Stage) (after : After)
  | flush (dev : UInt32) (i : Nat) (sweep : Bool)
  | sweep (dev : UInt32) (i : Nat)
  | freeing (data : Option Nat) (rest : Option (UInt32 × Nat))
deriving DecidableEq

/-- `held` are the blocks that `pc_get_page` has returned and `pc_put_page` was not called for. -/
structure Task where
  pc : Pc
  held : List (Key × Nat)

structure World where
  cache : Cache
  tasks : List Task
  /-- The buffers that are allocated. -/
  live : Nat → Bool

inductive Op
  | get (k : Key) (size : UInt32)
  | markDirty (k : Key)
  | put (k : Key)
  | flushDev (dev : UInt32)
  | invalidateBlock (k : Key)
  | invalidateDev (dev : UInt32)
  /-- The task goes on, and `kalloc` returns `buffer` if it is called. -/
  | go (buffer : Option Nat)

namespace World

def setTask (w : World) (i : Nat) (t : Task) : World := { w with tasks := w.tasks.set i t }

def setCache (w : World) (c : Cache) : World := { w with cache := c }

/-- `pc_get_page` up to the end of its first look. -/
def get (w : World) (i : Nat) (t : Task) (k : Key) (size : UInt32) : Option World :=
  (w.cache.hashFind k).map fun
    | some p =>
      (w.setCache ((w.cache.pin p).lruTouch p)).setTask i { t with pc := .found k p }
    | none => w.setTask i { t with pc := .missed k size }

/-- The tests on the size and on the place of a block; `maxLba` is the size of the device. -/
def admissible (maxLba : Option Nat) (k : Key) (size : UInt32) : Bool :=
  let spb := size.toNat / 512
  !(size.toNat = 0 || size.toNat % 512 ≠ 0) && !(pcMaxBlockSize < size.toNat) &&
    match maxLba with
    | none => true
    | some max =>
      !((2 ^ 32 - 1) / spb < k.blockNo.toNat) &&
        !(max < (k.blockNo.toNat * spb + spb) % 2 ^ 32)

/-- The slot that `pc_get_page` takes for a block that is not cached. -/
def take (w : World) (i : Nat) (t : Task) (k : Key) (size : UInt32) : Option World :=
  w.cache.allocPage.map fun
    | (none, c) => (w.setCache c).setTask i { t with pc := .idle }
    | (some p, c) =>
      let x := { c.page p with
        key := k, blockSize := size, valid := false, dirty := false, used := true, pin := 1 }
      (w.setCache (c.setPage p x)).setTask i { t with pc := .slot k p }

/-- The buffer of a slot. -/
def fill (w : World) (i : Nat) (t : Task) (k : Key) (p : Nat) (buffer : Option Nat) :
    Option World :=
  match (w.cache.page p).data, buffer with
  | some _, _ => some (w.setTask i { t with pc := .filled k p })
  | none, none => some (w.setTask i { t with pc := .noMemory p })
  | none, some b =>
    -- `kalloc` returns memory that is free
    if w.live b then none
    else
      some (({ w with live := update w.live b true }.setCache
        (w.cache.setPage p { w.cache.page p with data := some b })).setTask i
          { t with pc := .filled k p })

/-- The second look of `pc_get_page`. -/
def publish (w : World) (i : Nat) (t : Task) (k : Key) (p : Nat) : Option World :=
  (w.cache.hashFind k).map fun
    | some existing =>
      (w.setCache ((w.cache.pin existing).lruTouch existing)).setTask i
        { t with pc := .beaten k p existing }
    | none =>
      let c := w.cache.setPage p { w.cache.page p with valid := true }
      (w.setCache ((c.hashInsert p).lruTouch p)).setTask i { t with pc := .found k p }

/-- `pc_mark_dirty` up to the write-back. -/
def markDirty (w : World) (i : Nat) (t : Task) (k : Key) : Option World :=
  (w.cache.hashFind k).map fun
    | none => w
    | some p =>
      let c := w.cache.setPage p { w.cache.page p with dirty := true }
      (w.setCache (c.pin p)).setTask i { t with pc := .writeback p .opened .done }

/-- `pc_put_page`, by a task that has the block. -/
def put (w : World) (i : Nat) (t : Task) (k : Key) : Option World :=
  if t.held.any fun x => x.1 = k then
    let w := w.setTask i { t with held := t.held.eraseP fun x => x.1 = k }
    (w.cache.hashFind k).map fun
      | none => w
      | some p => if (w.cache.page p).pin = 0 then w else w.setCache (w.cache.unpin p)
  else none

/-- The next page of a loop over the pool from `i` on. -/
def next (i : Nat) (wanted : Nat → Bool) : Option Nat :=
  (List.range pcMaxPages).find? fun j => i ≤ j && wanted j

/-- The loop of `pc_flush_dev` up to the next write-back. -/
def flush (w : World) (i : Nat) (t : Task) (dev : UInt32) (from_ : Nat) (sweep : Bool) : World :=
  match next from_ fun j =>
    (w.cache.page j).valid && (w.cache.page j).dirty && (w.cache.page j).key.dev = dev with
  | some j =>
    (w.setCache (w.cache.pin j)).setTask i
      { t with pc := .writeback j .opened (.flush dev (j + 1) sweep) }
  | none => w.setTask i { t with pc := if sweep then .sweep dev 0 else .idle }

/-- The loop of `pc_invalidate_dev` up to the next page that it removes. -/
def sweep (w : World) (i : Nat) (t : Task) (dev : UInt32) (from_ : Nat) : Option World :=
  match next from_ fun j =>
    (w.cache.page j).valid && (w.cache.page j).key.dev = dev && (w.cache.page j).pin = 0 with
  | some j =>
    (w.cache.detach j).map fun r =>
      (w.setCache r.2).setTask i { t with pc := .freeing r.1 (some (dev, j + 1)) }
  | none => some (w.setTask i { t with pc := .idle })

/-- `pc_invalidate_block` up to the first release of the lock. -/
def invalidateBlock (w : World) (i : Nat) (t : Task) (k : Key) : Option World :=
  (w.cache.hashFind k).bind fun
    | none => some w
    | some p =>
      if 0 < (w.cache.page p).pin then some w
      else if (w.cache.page p).dirty then
        some ((w.setCache (w.cache.pin p)).setTask i
          { t with pc := .writeback p .opened .remove })
      else
        (w.cache.detach p).map fun r =>
          (w.setCache r.2).setTask i { t with pc := .freeing r.1 none }

/-- A write-back without the lock, and what is done once it is held again. -/
def writeback (w : World) (i : Nat) (t : Task) (p : Nat) (after : After) : Stage → Option World
  | .opened =>
    let stage := if (w.cache.page p).dirty then Stage.writing else .written
    some (w.setTask i { t with pc := .writeback p stage after })
  | .writing =>
    some ((w.setCache (w.cache.writeback p)).setTask i { t with pc := .writeback p .written after })
  | .written =>
    let c := w.cache.unpin p
    match after with
    | .done => some ((w.setCache c).setTask i { t with pc := .idle })
    | .flush dev j sweep => some ((w.setCache c).setTask i { t with pc := .flush dev j sweep })
    | .remove =>
      (c.detach p).map fun r =>
        (w.setCache r.2).setTask i { t with pc := .freeing r.1 none }

/-- `free_page`, and back to the loop of `pc_invalidate_dev` if that called it. -/
def free (w : World) (i : Nat) (t : Task) (data : Option Nat) (rest : Option (UInt32 × Nat)) :
    World :=
  let live := match data with
    | some b => update w.live b false
    | none => w.live
  let pc := match rest with
    | some (dev, j) => Pc.sweep dev j
    | none => .idle
  { w with live := live }.setTask i { t with pc := pc }

/-- What a task does next; `maxLba` is the size of a device. -/
def go (maxLba : UInt32 → Option Nat) (w : World) (i : Nat) (t : Task) (buffer : Option Nat) :
    Option World :=
  match t.pc with
  | .idle => none
  | .missed k size =>
    if admissible (maxLba k.dev) k size then w.take i t k size
    else some (w.setTask i { t with pc := .idle })
  | .slot k p => w.fill i t k p buffer
  | .noMemory p => some ((w.setCache (w.cache.clear p)).setTask i { t with pc := .idle })
  | .filled k p => w.publish i t k p
  | .beaten k p existing =>
    some ((w.setCache (w.cache.clear p)).setTask i { t with pc := .found k existing })
  | .found k p =>
    match (w.cache.page p).data with
    | some b => some (w.setTask i ⟨.idle, t.held ++ [(k, b)]⟩)
    | none => some (w.setTask i { t with pc := .idle })
  | .writeback p stage after => w.writeback i t p after stage
  | .flush dev j sweep => some (w.flush i t dev j sweep)
  | .sweep dev j => w.sweep i t dev j
  | .freeing data rest => some (w.free i t data rest)

def call (w : World) (i : Nat) (t : Task) : Op → Option World
  | .get k size => w.get i t k size
  | .markDirty k => w.markDirty i t k
  | .put k => w.put i t k
  | .flushDev dev => some (w.flush i t dev 0 false)
  | .invalidateBlock k => w.invalidateBlock i t k
  | .invalidateDev dev => some (w.flush i t dev 0 true)
  | .go _ => none

/-- A step of task `i`; a task that is in a call cannot make another one. -/
def step (maxLba : UInt32 → Option Nat) (w : World) (i : Nat) (op : Op) : Option World :=
  w.tasks[i]?.bind fun t =>
    match op with
    | .go buffer => w.go maxLba i t buffer
    | op => if t.pc = .idle then w.call i t op else none

/-- After `pc_init`, with the memory `live` in use elsewhere. -/
def start (tasks : Nat) (live : Nat → Bool) : World where
  cache :=
    { page := fun _ => ⟨⟨0, 0⟩, 0, false, false, false, 0, none⟩
      hashTable := fun _ => none
      hashNext := fun _ => none
      lruPrev := fun _ => none
      lruNext := fun _ => none
      lruHead := none
      lruTail := none }
  tasks := List.replicate tasks ⟨.idle, []⟩
  live := live

end World

end CactKernel.PageCache
