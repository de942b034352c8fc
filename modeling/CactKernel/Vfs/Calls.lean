import CactKernel.Vfs.Files

/-! # File calls of one process

`sys_open`, `sys_read`, `sys_write`, `sys_fcntl` and the commands of
`_fdctl_handle` and `_dirctl_handle`, over the nodes of any file systems.

A file system is what its operations do to the private data of a node: `read`
and `write` get the node, a directory is changed by adding, removing and renaming
names. Mounted links count as names of the directory that they are mounted
on. Path resolution is part of it. The arguments of a call are those that were
copied from the caller; a copy that fails ends the call before it does anything. -/

set_option autoImplicit false

namespace CactKernel.Vfs

abbrev Name := List Char

def permRead : Nat := 4
def permWrite : Nat := 2
def permExec : Nat := 1

def openCreat : Nat := 0x0040
def setflMask : Nat := 0x0C00

def ePerm : Int := 1
def eNoEnt : Int := 2
def eIo : Int := 5
def eAcces : Int := 13
def eExist : Int := 17
def eNotDir : Int := 20

inductive NodeType
  | file
  | directory
  | charDevice
  | blockDevice
  | pipe
  | socket
  | symlink
deriving DecidableEq

/-- `vfs_node_t` with the private data of its file system. -/
structure Inode (δ : Type) where
  type : NodeType
  size : Nat
  mode : Nat
  uid : Nat
  gid : Nat
  data : δ

structure Cred where
  euid : Nat
  egid : Nat
  isKernel : Bool

/-- The operations of the file systems. `truncate`, `chmod` and `chown` may be
missing; a name that was just added is found. -/
structure FileSystem (δ : Type) where
  resolve : List (Inode δ) → Name → Option Nat
  resolveParent : List (Inode δ) → Name → Option (Nat × Name)
  walk : δ → Name → Option Nat
  read : Inode δ → Nat → Nat → Int × List UInt8
  write : Inode δ → Nat → List UInt8 → Int × Nat × δ
  truncate : Option (Inode δ → Nat → Int × Nat × δ)
  chmod : Option (Inode δ → Nat → Int × Nat)
  chown : Option (Inode δ → Nat → Nat → Int × Nat × Nat)
  readdir : δ → Nat → Option Name
  readlink : Inode δ → Nat → Int × List UInt8
  add : δ → Name → Nat → Option δ
  unlink : δ → Name → Option δ
  rmdir : δ → Name → Option δ
  rename : δ → Name → Name → Option δ
  create : NodeType → Inode δ
  symlink : Name → Inode δ
  walk_add : ∀ d name id d', add d name id = some d' → walk d' name = some id

structure OpenFile where
  node : Nat
  offset : Nat
  flags : Nat
  cloexec : Bool

/-- What a call copies out. -/
inductive Piece
  | bytes (data : List UInt8)
  | entry (name : Name)

/-- The nodes, the files and descriptors of the process, and what was copied out to
it so far, with the node that it came from. -/
structure Session (δ : Type) where
  nodes : List (Inode δ)
  files : List OpenFile
  fds : List (Option Nat)
  returned : List (Nat × Piece)

section

variable {δ : Type}

def vfsCheckPerm (c : Cred) (node : Inode δ) (perm : Nat) : Bool :=
  if node.mode = 0 then true
  else if c.isKernel then true
  else if c.euid = 0 then true
  else
    let shift := if c.euid = node.uid then 6 else if c.egid = node.gid then 3 else 0
    let allowed := (node.mode >>> shift) &&& 7
    (allowed &&& perm) == perm

def accmode (flags : Nat) : Nat := flags &&& openAccmode

def asksRead (flags : Nat) : Bool := accmode flags == 0 || accmode flags == 2

def asksWrite (flags : Nat) : Bool := accmode flags == 1 || accmode flags == 2

/-- Access mode 3 asks for nothing. -/
def neededPerm (flags : Nat) : Nat :=
  (if asksRead flags then permRead else 0) ||| (if asksWrite flags then permWrite else 0)

def nameIsSingle (name : Name) : Bool := !name.isEmpty && !name.contains '/'

namespace Session

def setNode (s : Session δ) (n : Nat) (x : Inode δ) : Session δ :=
  { s with nodes := s.nodes.set n x }

def setFile (s : Session δ) (i : Nat) (x : OpenFile) : Session δ :=
  { s with files := s.files.set i x }

def setFd (s : Session δ) (fd : Nat) (x : Option Nat) : Session δ :=
  { s with fds := s.fds.set fd x }

def give (s : Session δ) (n : Nat) (piece : Piece) : Session δ :=
  { s with returned := s.returned ++ [(n, piece)] }

/-- The file behind a descriptor, with its place. -/
def getFile (s : Session δ) (fd : Nat) : Option (Nat × OpenFile) :=
  match s.fds[fd]?.join with
  | some i => (s.files[i]?).map fun f => (i, f)
  | none => none

/-- The node behind a descriptor, with its place. -/
def getNode (s : Session δ) (fd : Nat) : Option (Nat × Inode δ) :=
  match s.getFile fd with
  | some (_, f) => (s.nodes[f.node]?).map fun x => (f.node, x)
  | none => none

variable (fs : FileSystem δ) (c : Cred)

/-! ## Operations on a node -/

def truncateVfs (s : Session δ) (n length : Nat) : Int × Session δ :=
  match s.nodes[n]? with
  | none => (-1, s)
  | some node =>
    match fs.truncate with
    | some op =>
      let (code, size, data) := op node length
      (code, s.setNode n { node with size := size, data := data })
    | none => (0, s.setNode n { node with size := length })

def chmodVfs (s : Session δ) (n mode : Nat) : Int × Session δ :=
  match s.nodes[n]? with
  | none => (-1, s)
  | some node =>
    match fs.chmod with
    | some op =>
      let (code, new) := op node mode
      (code, s.setNode n { node with mode := new })
    | none => (0, s.setNode n { node with mode := mode &&& 0o777 })

def chownVfs (s : Session δ) (n uid gid : Nat) : Int × Session δ :=
  match s.nodes[n]? with
  | none => (-1, s)
  | some node =>
    match fs.chown with
    | some op =>
      let (code, uid, gid) := op node uid gid
      (code, s.setNode n { node with uid := uid, gid := gid })
    | none =>
      let uid := if uid = 0xFFFFFFFF then node.uid else uid
      let gid := if gid = 0xFFFFFFFF then node.gid else gid
      (0, s.setNode n { node with uid := uid, gid := gid })

/-- A new node under a new name of the directory: `create_vfs`, `mkdir_vfs`,
`vfs_symlink`. -/
def addNode (s : Session δ) (dir : Nat) (name : Name) (x : Inode δ) : Int × Session δ :=
  match s.nodes[dir]? with
  | none => (-1, s)
  | some node =>
    if node.type ≠ .directory then (-1, s)
    else
      match fs.add node.data name s.nodes.length with
      | none => (-1, s)
      | some data =>
        (0, { s with nodes := s.nodes.set dir { node with data := data } ++ [x] })

/-- The names of a directory change: `vfs_unlink`, `rmdir_vfs`, `rename_vfs`, `vfs_link`. -/
def editDir (s : Session δ) (dir : Nat) (edit : δ → Option δ) : Int × Session δ :=
  match s.nodes[dir]? with
  | none => (-1, s)
  | some node =>
    if node.type ≠ .directory then (-1, s)
    else
      match edit node.data with
      | none => (-1, s)
      | some data => (0, s.setNode dir { node with data := data })

def mknodVfs (s : Session δ) (dir : Nat) (name : Name) (mode : Nat) : Int × Session δ :=
  match s.addNode fs dir name (fs.create .file) with
  | (0, made) =>
    match ((made.nodes[dir]?).bind fun x => fs.walk x.data name) with
    | none => (-1, made)
    | some n =>
      match made.nodes[n]? with
      | none => (-1, made)
      | some node =>
        let type := if mode &&& 0xF000 = 0x2000 then .charDevice
          else if mode &&& 0xF000 = 0x6000 then .blockDevice else node.type
        (0, made.setNode n { node with type := type, mode := mode &&& 0o777 })
  | (code, made) => (code, made)

/-! ## Opening, reading and writing -/

/-- The common end of `sys_open` and `_dirctl_openat`, which answer a refusal, a full
table and a failed truncation each with their own codes. -/
def openNode (s : Session δ) (n flags : Nat) (denied full failed : Int) : Int × Session δ :=
  match s.nodes[n]? with
  | none => (-1, s)
  | some node =>
    if vfsCheckPerm c node (neededPerm flags) = false then (denied, s)
    else
      let made : Session δ := { s with files := s.files ++ [⟨n, 0, flags, false⟩] }
      match Kernel.freeSlot made.fds 3 with
      | none => (full, made)
      | some i =>
        let filled := made.setFd i (some s.files.length)
        if flags &&& openTrunc ≠ 0 ∧ (accmode flags = openWronly ∨ accmode flags = openRdwr) then
          match filled.truncateVfs fs n 0 with
          | (0, cut) => (i, cut)
          | (_, cut) => (failed, cut.setFd i none)
        else (i, filled)

def sysOpen (s : Session δ) (path : Name) (flags : Nat) : Int × Session δ :=
  match fs.resolve s.nodes path with
  | some n => s.openNode fs c n flags (-1) (-1) (-1)
  | none =>
    if flags &&& openCreat = 0 then (-1, s)
    else
      match fs.resolveParent s.nodes path with
      | none => (-1, s)
      | some (parent, base) =>
        match s.nodes[parent]? with
        | none => (-1, s)
        | some dir =>
          if base = [] ∨ vfsCheckPerm c dir (permWrite ||| permExec) = false then (-1, s)
          else
            match s.addNode fs parent base (fs.create .file) with
            | (0, made) =>
              match fs.resolve made.nodes path with
              | some n => made.openNode fs c n flags (-1) (-1) (-1)
              | none => (-1, made)
            | (_, made) => (-1, made)

def sysRead (s : Session δ) (fd size : Nat) : Int × Session δ :=
  if size = 0 then (-1, s)
  else
    match s.getFile fd with
    | none => (-1, s)
    | some (i, f) =>
      match s.nodes[f.node]? with
      | none => (-1, s)
      | some node =>
        let (code, data) := fs.read node f.offset size
        let read := s.give f.node (.bytes data)
        if code > 0 then
          (code, read.setFile i { f with offset := (f.offset + code.toNat) % 2 ^ 32 })
        else (code, read)

def sysWrite (s : Session δ) (fd : Nat) (data : List UInt8) : Int × Session δ :=
  if data = [] then (-1, s)
  else
    match s.getFile fd with
    | none => (-1, s)
    | some (i, f) =>
      match s.nodes[f.node]? with
      | none => (-1, s)
      | some node =>
        let (code, size, new) := fs.write node f.offset data
        let wrote := s.setNode f.node { node with size := size, data := new }
        if code > 0 then
          (code, wrote.setFile i { f with offset := (f.offset + code.toNat) % 2 ^ 32 })
        else (code, wrote)

/-! ## Commands on a descriptor -/

def dupFrom (s : Session δ) (fd start : Nat) : Int × Session δ :=
  match s.getFile fd with
  | none => (-1, s)
  | some (i, _) =>
    match Kernel.freeSlot s.fds start with
    | some slot => (slot, s.setFd slot (some i))
    | none => (-1, s)

def fdctlDup2 (s : Session δ) (fd newfd : Nat) : Int × Session δ :=
  match s.getFile fd with
  | none => (-eBadF, s)
  | some (i, _) =>
    if newfd ≥ maxFd then (-eBadF, s)
    else if fd = newfd then (newfd, s)
    else (newfd, s.setFd newfd (some i))

inductive FcntlCmd
  | dupFd (start : Nat)
  | getFd
  | setFd (arg : Nat)
  | getFl
  | setFl (arg : Nat)

def sysFcntl (s : Session δ) (fd : Nat) (cmd : FcntlCmd) : Int × Session δ :=
  match s.getFile fd with
  | none => (-1, s)
  | some (i, f) =>
    match cmd with
    | .dupFd start => if start ≥ maxFd then (-1, s) else s.dupFrom fd start
    | .getFd => (if f.cloexec then 1 else 0, s)
    | .setFd arg => (0, s.setFile i { f with cloexec := arg &&& 1 = 1 })
    | .getFl => (f.flags, s)
    | .setFl arg =>
      (0, s.setFile i { f with
        flags := (f.flags - (f.flags &&& setflMask)) ||| (arg &&& setflMask) })

/-- `lseek`: any offset may result. -/
def lseek (s : Session δ) (fd offset : Nat) : Int × Session δ :=
  match s.getFile fd with
  | none => (-eBadF, s)
  | some (i, f) => (offset, s.setFile i { f with offset := offset })

def ftruncate (s : Session δ) (fd length : Nat) : Int × Session δ :=
  match s.getNode fd with
  | none => (-eBadF, s)
  | some (n, node) => if node.type ≠ .file then (-eInval, s) else s.truncateVfs fs n length

/-- Entries from the file's offset on, as many as fit. -/
def readEntries (n : Nat) (data : δ) : Nat → Nat → Session δ → Nat × Session δ
  | 0, index, s => (index, s)
  | room + 1, index, s =>
    match fs.readdir data index with
    | none => (index, s)
    | some name => readEntries n data room (index + 1) (s.give n (.entry name))

def direntSize : Nat := 128

def getdents (s : Session δ) (fd count : Nat) : Int × Session δ :=
  match s.getFile fd with
  | none => (-eBadF, s)
  | some (i, f) =>
    match s.nodes[f.node]? with
    | none => (-eBadF, s)
    | some node =>
      if count = 0 then (-eInval, s)
      else if node.type ≠ .directory then (-eNotDir, s)
      else if count < direntSize then (-eInval, s)
      else
        let (index, read) := s.readEntries fs f.node node.data (count / direntSize) f.offset
        ((direntSize * (index - f.offset) : Nat), read.setFile i { f with offset := index })

/-! ## Commands on a directory -/

/-- What every command on a directory starts with. -/
def onDir (s : Session δ) (fd : Nat) (body : Nat → Inode δ → Int × Session δ) : Int × Session δ :=
  match s.getNode fd with
  | none => (-eBadF, s)
  | some (n, node) => if node.type ≠ .directory then (-eNotDir, s) else body n node

def dirWx (dir : Inode δ) : Bool := vfsCheckPerm c dir (permWrite ||| permExec)

def openat (s : Session δ) (fd : Nat) (name : Name) (flags : Nat) : Int × Session δ :=
  s.onDir fd fun dir node =>
    if nameIsSingle name = false then (-eInval, s)
    else
      match fs.walk node.data name with
      | some n => s.openNode fs c n flags (-eAcces) (-eMFile) (-eIo)
      | none =>
        if flags &&& openCreat = 0 then (-eNoEnt, s)
        else if dirWx c node = false then (-eAcces, s)
        else
          match s.addNode fs dir name (fs.create .file) with
          | (0, made) =>
            match (made.nodes[dir]?).bind fun x => fs.walk x.data name with
            | some n => made.openNode fs c n flags (-eAcces) (-eMFile) (-eIo)
            | none => (-eIo, made)
          | (_, made) => (-eIo, made)

/-- `CREATE`, `MKDIR` and `SYMLINK`: a new node under a name that is not taken. -/
def makeAt (s : Session δ) (fd : Nat) (name : Name) (x : Inode δ) : Int × Session δ :=
  s.onDir fd fun dir node =>
    if nameIsSingle name = false then (-eInval, s)
    else if (fs.walk node.data name).isSome then (-eExist, s)
    else if dirWx c node = false then (-eAcces, s)
    else s.addNode fs dir name x

/-- `UNLINK`, `RMDIR` and `RENAME`: names of the directory change; `names` are those
that the call was given, the first of which has to be there. -/
def editAt (s : Session δ) (fd : Nat) (name : Name) (names : List Name)
    (edit : δ → Option δ) : Int × Session δ :=
  s.onDir fd fun dir node =>
    if names.all nameIsSingle = false then (-eInval, s)
    else if (fs.walk node.data name).isNone then (-eNoEnt, s)
    else if dirWx c node = false then (-eAcces, s)
    else s.editDir dir edit

def linkAt (s : Session δ) (fd : Nat) (target name : Name) : Int × Session δ :=
  s.onDir fd fun dir node =>
    if nameIsSingle target = false ∨ nameIsSingle name = false then (-eInval, s)
    else
      match fs.walk node.data target with
      | none => (-eNoEnt, s)
      | some n =>
        if (fs.walk node.data name).isSome then (-eExist, s)
        else if dirWx c node = false then (-eAcces, s)
        else s.editDir dir fun data => fs.add data name n

/-- A command on the node under a name of the directory. -/
def onEntry (s : Session δ) (fd : Nat) (name : Name) (body : Nat → Inode δ → Int × Session δ) :
    Int × Session δ :=
  s.onDir fd fun _ dir =>
    if nameIsSingle name = false then (-eInval, s)
    else
      match (fs.walk dir.data name).bind fun n => (s.nodes[n]?).map fun x => (n, x) with
      | none => (-eNoEnt, s)
      | some (n, node) => body n node

def readlinkAt (s : Session δ) (fd : Nat) (name : Name) (room : Nat) : Int × Session δ :=
  s.onDir fd fun _ _ =>
    if room = 0 then (-eInval, s)
    else
      s.onEntry fs fd name fun n node =>
        if node.type ≠ .symlink then (-eInval, s)
        else
          let (code, data) := fs.readlink node room
          (code, s.give n (.bytes data))

def chmodAt (s : Session δ) (fd : Nat) (name : Name) (mode : Nat) : Int × Session δ :=
  s.onEntry fs fd name fun n node =>
    if c.euid ≠ 0 ∧ c.euid ≠ node.uid then (-ePerm, s) else s.chmodVfs fs n mode

def chownAt (s : Session δ) (fd : Nat) (name : Name) (uid gid : Nat) : Int × Session δ :=
  s.onDir fd fun _ _ =>
    if c.euid ≠ 0 then (-ePerm, s) else s.onEntry fs fd name fun n _ => s.chownVfs fs n uid gid

def truncateAt (s : Session δ) (fd : Nat) (name : Name) (length : Nat) : Int × Session δ :=
  s.onEntry fs fd name fun n node =>
    if node.type ≠ .file then (-eInval, s)
    else if vfsCheckPerm c node permWrite = false then (-eAcces, s)
    else s.truncateVfs fs n length

/-- `MKNOD` asks for no permission. -/
def mknodAt (s : Session δ) (fd : Nat) (name : Name) (mode : Nat) : Int × Session δ :=
  s.onDir fd fun dir node =>
    if nameIsSingle name = false then (-eInval, s)
    else if (fs.walk node.data name).isSome then (-eExist, s)
    else s.mknodVfs fs dir name mode

end Session

/-! ## Runs -/

inductive FileCall
  | openPath (path : Name) (flags : Nat)
  | read (fd size : Nat)
  | write (fd : Nat) (data : List UInt8)
  | close (fd : Nat)
  | dup (fd : Nat)
  | dup2 (fd newfd : Nat)
  | fcntl (fd : Nat) (cmd : Session.FcntlCmd)
  | lseek (fd offset : Nat)
  | ftruncate (fd length : Nat)
  | getdents (fd count : Nat)
  | openat (fd : Nat) (name : Name) (flags : Nat)
  | create (fd : Nat) (name : Name)
  | mkdir (fd : Nat) (name : Name)
  | symlink (fd : Nat) (name target : Name)
  | unlink (fd : Nat) (name : Name)
  | rmdir (fd : Nat) (name : Name)
  | rename (fd : Nat) (old new : Name)
  | link (fd : Nat) (target name : Name)
  | readlink (fd : Nat) (name : Name) (room : Nat)
  | chmod (fd : Nat) (name : Name) (mode : Nat)
  | chown (fd : Nat) (name : Name) (uid gid : Nat)
  | truncate (fd : Nat) (name : Name) (length : Nat)
  | mknod (fd : Nat) (name : Name) (mode : Nat)

namespace Session

def perform (fs : FileSystem δ) (c : Cred) (s : Session δ) : FileCall → Int × Session δ
  | .openPath path flags => s.sysOpen fs c path flags
  | .read fd size => s.sysRead fs fd size
  | .write fd data => s.sysWrite fs fd data
  | .close fd => if (s.getFile fd).isSome then (0, s.setFd fd none) else (-1, s)
  | .dup fd => s.dupFrom fd 0
  | .dup2 fd newfd => s.fdctlDup2 fd newfd
  | .fcntl fd cmd => s.sysFcntl fd cmd
  | .lseek fd offset => s.lseek fd offset
  | .ftruncate fd length => s.ftruncate fs fd length
  | .getdents fd count => s.getdents fs fd count
  | .openat fd name flags => s.openat fs c fd name flags
  | .create fd name => s.makeAt fs c fd name (fs.create .file)
  | .mkdir fd name => s.makeAt fs c fd name (fs.create .directory)
  | .symlink fd name target => s.makeAt fs c fd name (fs.symlink target)
  | .unlink fd name => s.editAt fs c fd name [name] fun data => fs.unlink data name
  | .rmdir fd name => s.editAt fs c fd name [name] fun data => fs.rmdir data name
  | .rename fd old new => s.editAt fs c fd old [old, new] fun data => fs.rename data old new
  | .link fd target name => s.linkAt fs c fd target name
  | .readlink fd name room => s.readlinkAt fs fd name room
  | .chmod fd name mode => s.chmodAt fs c fd name mode
  | .chown fd name uid gid => s.chownAt fs c fd name uid gid
  | .truncate fd name length => s.truncateAt fs c fd name length
  | .mknod fd name mode => s.mknodAt fs fd name mode

end Session

end

/-! ## tmpfs -/

/-- `tmpfs_node_t`: the bytes of a file, or the children of a directory. -/
structure TmpNode where
  bytes : List UInt8
  children : List (Name × Nat)
deriving DecidableEq

namespace TmpNode

def find (d : TmpNode) (name : Name) : Option Nat :=
  (d.children.find? fun child => child.1 == name).map Prod.snd

def read (node : Inode TmpNode) (off size : Nat) : Int × List UInt8 :=
  if node.type ≠ .file then (-1, [])
  else if off ≥ node.data.bytes.length then (0, [])
  else
    let got := (node.data.bytes.drop off).take size
    (got.length, got)

/-- Bytes between the old end and `off` are zero; `off + size` stays below `2 ^ 32`. -/
def write (node : Inode TmpNode) (off : Nat) (data : List UInt8) : Int × Nat × TmpNode :=
  if node.type ≠ .file then (-1, node.size, node.data)
  else
    let old := node.data.bytes
    let padded := old ++ List.replicate (off - old.length) 0
    let bytes := padded.take off ++ data ++ padded.drop (off + data.length)
    (data.length, if off + data.length > old.length then off + data.length else node.size,
      { node.data with bytes := bytes })

def add (d : TmpNode) (name : Name) (id : Nat) : Option TmpNode :=
  if (d.find name).isSome then none else some { d with children := (name, id) :: d.children }

def unlink (d : TmpNode) (name : Name) : Option TmpNode :=
  if (d.find name).isSome then
    some { d with children := d.children.eraseP fun child => child.1 == name }
  else none

def rename (d : TmpNode) (old new : Name) : Option TmpNode :=
  match d.children.findIdx? fun child => child.1 == old with
  | none => none
  | some i =>
    some { d with children := d.children.modify i fun child => (new, child.2) }

end TmpNode

/-- The paths are those of the files in the root directory. -/
def tmpfs : FileSystem TmpNode where
  resolve nodes path := (nodes[0]?).bind fun root => root.data.find path
  resolveParent _ path := some (0, path)
  walk := TmpNode.find
  read := TmpNode.read
  write := TmpNode.write
  truncate := none
  chmod := none
  chown := none
  readdir d index := (d.children[index]?).map Prod.fst
  readlink node room := (min node.data.bytes.length (room - 1), node.data.bytes.take (room - 1))
  add := TmpNode.add
  unlink := TmpNode.unlink
  rmdir := TmpNode.unlink
  rename := TmpNode.rename
  create type := ⟨type, 0, 0o777, 0, 0, ⟨[], []⟩⟩
  symlink target := ⟨.symlink, target.length, 0, 0, 0,
    ⟨target.map fun char => UInt8.ofNat char.toNat, []⟩⟩
  walk_add d name id d' added := by
    unfold TmpNode.add at added
    split at added
    · cases added
    · cases added
      simp [TmpNode.find]

end CactKernel.Vfs
