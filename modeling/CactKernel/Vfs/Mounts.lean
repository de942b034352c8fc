import CactKernel.Lib.Reach
import Mathlib.Data.List.Nodup

/-! # Mounting and unmounting block devices

`/dev/sys` MOUNT and UMOUNT drive three registries: the disk list of `mntfs`, the
devices each filesystem module counts as mounted, and the mount table of the VFS.
Every mount gets a number. A node of a filesystem and the three directory nodes
inside a disk entry carry the number of their mount, and a module's list keeps it
beside the name, so that a mount number no module counts is a filesystem whose
device has been unmounted. -/

set_option autoImplicit false

namespace CactKernel.Mounts

open List Option Nat

abbrev Text := List Char

def fsModMaxMounts : Nat := 32
def vfsMountMax : Nat := 32
def vfsSymlinkMaxDepth : Nat := 8

inductive Node
  | top
  | disk (mount : Nat)
  | raw (mount : Nat)
  | sys (mount : Nat)
  | file (mount inode : Nat)
  | virt (id : Nat)
  | link (target : Text)
deriving DecidableEq

def Node.mount? : Node → Option Nat
  | .disk m | .raw m | .sys m | .file m _ => some m
  | _ => none

/-- What a directory lookup finds: a file of a disk, a node of a virtual
filesystem or a symbolic link. -/
inductive Entry
  | inode (i : Nat)
  | virt (id : Nat)
  | link (target : Text)

def Entry.node (mount : Nat) : Entry → Node
  | .inode i => .file mount i
  | .virt id => .virt id
  | .link target => .link target

/-- The directory trees the registries hang in. `/bin` and the other virtual trees
lead into the boot disk, which is mount 0. -/
structure Tree where
  files : Nat → Nat → Text → Option Entry
  virtuals : Nat → Text → Option Entry
  /-- `mnt_list`: the virtual filesystems under `sys/`. -/
  sys : Text → Option Nat
  isDirectory : Node → Bool

structure Disk where
  devname : Text
  mount : Nat
  hasSys : Bool
deriving DecidableEq

/-- `fs_slot_t` of a loaded module. -/
structure Slot where
  inst : Text
  mounted : List (Text × Nat)
deriving DecidableEq

/-- `vfs_mount_t`. -/
structure Alias where
  host : Node
  name : Text
  target : Node
deriving DecidableEq

structure Tables where
  slots : List Slot
  disks : List Disk
  aliases : List Alias
deriving DecidableEq

structure State where
  devices : List Text
  tables : Tables
  next : Nat

/-! ## Path walks -/

def Tables.findDisk (t : Tables) (devname : Text) : Option Disk :=
  t.disks.find? fun d => d.devname = devname

def Tables.lookupMount (t : Tables) (host : Node) (name : Text) : Option Node :=
  (t.aliases.find? fun a => a.host = host ∧ a.name = name).map (·.target)

def directory (tree : Tree) : Node → Bool
  | .file m i => tree.isDirectory (.file m i)
  | .virt id => tree.isDirectory (.virt id)
  | .link _ => false
  | _ => true

/-- `ops->walk`. -/
def walk (tree : Tree) (t : Tables) (name : Text) : Node → Option Node
  | .top => (t.findDisk name).map fun d => .disk d.mount
  | .disk m =>
    if name = "raw".toList then some (.raw m)
    else if name = "sys".toList ∧ t.disks.any (fun d => d.mount = m ∧ d.hasSys) then some (.sys m)
    else none
  | .raw m => (tree.files m 0 name).map (·.node m)
  | .sys _ => (tree.sys name).map .virt
  | .file m i => (tree.files m i name).map (·.node m)
  | .virt id => (tree.virtuals id name).map (·.node 0)
  | .link _ => none

def walkOne (tree : Tree) (t : Tables) (dir : Node) (name : Text) : Option Node :=
  if directory tree dir then
    match t.lookupMount dir name with
    | some target => some target
    | none => walk tree t name dir
  else none

def segments (path : Text) : List Text := (path.splitOn '/').filter fun seg => seg ≠ []

/-- One pass over the segments; `follow` goes on after a symbolic link. -/
def walkSegments (tree : Tree) (t : Tables) (follow : Node → List Text → Option Node) :
    Node → List Text → Option Node
  | cur, [] => some cur
  | cur, seg :: rest =>
    if seg.length > 127 then none
    else if seg = "..".toList then walkSegments tree t follow cur rest
    else
      match walkOne tree t cur seg with
      | none => none
      | some (.link []) => none
      | some (.link (c :: target)) =>
        follow (if c = '/' then .top else cur) (segments (c :: target) ++ rest)
      | some node => walkSegments tree t follow node rest

def walkPathFollow (tree : Tree) (t : Tables) : Nat → Node → List Text → Option Node
  | 0 => walkSegments tree t fun _ _ => none
  | depth + 1 => walkSegments tree t (walkPathFollow tree t depth)

def makeAbs (cwd path : Text) : Text :=
  if path.head? = some '/' then path.take 511
  else
    let cwd := cwd.take 510
    ((if cwd ≠ [] ∧ cwd.getLast? ≠ some '/' then cwd ++ ['/'] else cwd) ++ path).take 511

/-- The loop of `_canon_abs`, which has room for 128 segments. -/
def canonSegs : List Text → List Text → List Text
  | segs, [] => segs
  | segs, seg :: rest =>
    if seg = ".".toList then canonSegs segs rest
    else if seg = "..".toList then canonSegs segs.dropLast rest
    else if segs.length ≥ 128 then segs
    else canonSegs (segs ++ [seg]) rest

/-- `_canon_abs`. A current directory begins with a slash, so that the result fits the buffer. -/
def canonAbs (cwd path : Text) : List Text := canonSegs [] (segments (makeAbs cwd path))

def resolvePath (tree : Tree) (t : Tables) (cwd path : Text) : Option Node :=
  walkPathFollow tree t vfsSymlinkMaxDepth .top (canonAbs cwd path)

/-- The parent directory and the base name; no base name is an error of the callers. -/
def resolveParent (tree : Tree) (t : Tables) (cwd path : Text) : Option (Node × Text) :=
  match (canonAbs cwd path).getLast? with
  | none => none
  | some name =>
    (walkPathFollow tree t vfsSymlinkMaxDepth .top (canonAbs cwd path).dropLast).map
      fun parent => (parent, name.take 127)

/-! ## The registries -/

def Tables.vfsMount (t : Tables) (host : Node) (name : Text) (target : Node) : Option Tables :=
  if t.aliases.length ≥ vfsMountMax then none
  else if t.aliases.any fun a => a.host = host ∧ a.name = name then none
  else some { t with aliases := t.aliases ++ [⟨host, name, target⟩] }

/-- The last entry moves into the place of the one taken out. -/
def Tables.vfsUmount (t : Tables) (host : Node) (name : Text) : Option Tables :=
  match t.aliases.findIdx? (fun a => a.host = host ∧ a.name = name), t.aliases.getLast? with
  | some i, some last => some { t with aliases := (t.aliases.set i last).dropLast }
  | _, _ => none

def Slot.noteMount (s : Slot) (devname : Text) (m : Nat) : Slot :=
  if devname ∈ s.mounted.map (·.1) then s
  else if s.mounted.length ≥ fsModMaxMounts then s
  else { s with mounted := s.mounted ++ [(devname, m)] }

/-- The first module that `accepts` mounts the device and notes it. -/
def fsModMount (devname : Text) (m : Nat) (accepts : Slot → Bool) :
    List Slot → Option (List Slot)
  | [] => none
  | s :: rest =>
    if accepts s then some (s.noteMount devname m :: rest)
    else (fsModMount devname m accepts rest).map (s :: ·)

/-- Which modules a request tries, and whether one it tries finds its filesystem. -/
def chosen (fstype : Text) (finds : Text → Bool) (s : Slot) : Bool :=
  finds s.inst && (fstype = "auto".toList || fstype = "*".toList || s.inst = fstype)

def fsModUnmountDev (devname : Text) (slots : List Slot) : List Slot :=
  slots.map fun s => { s with mounted := s.mounted.eraseP fun p => p.1 = devname }

def Tables.mntfsUmountDisk (t : Tables) (devname : Text) : Tables :=
  match t.findDisk devname with
  | none => t
  | some d =>
    if d.hasSys then t else { t with disks := t.disks.eraseP fun d => d.devname = devname }

/-- The two calls that take a device out. -/
def Tables.dropDevice (t : Tables) (devname : Text) : Tables :=
  let t := t.mntfsUmountDisk devname
  { t with slots := fsModUnmountDev devname t.slots }

def Tables.addDisk (t : Tables) (slots : List Slot) (d : Disk) : Tables :=
  { t with slots := slots, disks := t.disks ++ [d] }

/-! ## The requests -/

def blkNameFromArg (arg : Text) : Text :=
  if "/dev/".toList.isPrefixOf arg then arg.drop 5
  else match arg with
    | '/' :: c :: rest => c :: rest
    | _ => arg

/-- A request of a process, with the answers of what it calls: the code of
`_root_only` and of copying the texts, which modules find their filesystem on the
device, and whether the disk entry gets its memory. -/
inductive Request
  | mount (refusal : Int) (cwd src : Text) (target fstype : Option Text)
      (finds : Text → Bool) (memory : Bool)
  | umount (refusal : Int) (cwd target : Text)

def mountBlkdev (tree : Tree) (s : State) (cwd src : Text) (target : Option Text) (fstype : Text)
    (finds : Text → Bool) (memory : Bool) : State × Int :=
  let dev := blkNameFromArg src
  if dev ∉ s.devices then (s, -1)
  else if (s.tables.findDisk dev).isSome then (s, -1)
  else
    match fsModMount dev s.next (chosen fstype finds) s.tables.slots with
    | none => (s, -1)
    | some slots =>
      let after := fun tables => { s with tables := tables, next := s.next + 1 }
      if !memory then (after { s.tables with slots := fsModUnmountDev dev slots }, -1)
      else
        let t := s.tables.addDisk slots ⟨dev, s.next, false⟩
        match target with
        | none | some [] => (after t, 0)
        | some path =>
          match resolveParent tree t cwd path with
          | none => (after (t.dropDevice dev), -1)
          | some (parent, name) =>
            match t.vfsMount parent name (.file s.next 0) with
            | none => (after (t.dropDevice dev), -1)
            | some t => (after t, 0)

def aliasMount (tree : Tree) (s : State) (cwd src : Text) (target : Option Text) : State × Int :=
  match resolvePath tree s.tables cwd src, target with
  | none, _ => (s, -1)
  | some _, none => (s, -22)
  | some node, some path =>
    match resolveParent tree s.tables cwd path with
    | none => (s, -1)
    | some (parent, name) =>
      match s.tables.vfsMount parent name node with
      | none => (s, -1)
      | some t => ({ s with tables := t }, 0)

/-- The mount-table entry that UMOUNT takes out first. -/
def umountAlias (tree : Tree) (t : Tables) (cwd target : Text) : Option Tables :=
  (resolveParent tree t cwd target).bind fun (parent, name) => t.vfsUmount parent name

def umountDevice (s : State) (target : Text) : Option Disk :=
  let dev := blkNameFromArg target
  if dev ≠ [] ∧ dev ∈ s.devices then s.tables.findDisk dev else none

def sysUmount (tree : Tree) (s : State) (cwd target : Text) : State × Int :=
  match umountAlias tree s.tables cwd target with
  | some t => ({ s with tables := t }, 0)
  | none =>
    match umountDevice s target with
    | some d => ({ s with tables := s.tables.dropDevice d.devname }, 0)
    | none => (s, -1)

def serve (tree : Tree) (s : State) : Request → State × Int
  | .mount refusal cwd src target fstype finds memory =>
    if refusal ≠ 0 then (s, refusal)
    else
      match fstype with
      | none | some [] => aliasMount tree s cwd src target
      | some fstype => mountBlkdev tree s cwd src target fstype finds memory
  | .umount refusal cwd target =>
    if refusal ≠ 0 then (s, refusal) else sysUmount tree s cwd target

/-! ## Boot -/

/-- A disk of the boot, which nothing takes out again. -/
def bootMount (finds : Text → Text → Bool) (hasSys : Bool) (s : State) (dev : Text) : State :=
  if dev ∉ s.devices ∨ (s.tables.findDisk dev).isSome then s
  else
    match fsModMount dev s.next (fun slot => finds dev slot.inst) s.tables.slots with
    | none => s
    | some slots =>
      { s with tables := s.tables.addDisk slots ⟨dev, s.next, hasSys⟩, next := s.next + 1 }

/-- `mntfs_init`: the boot disk, the devices of `/etc/mounts`, and the aliases of the
virtual filesystems. Without a boot disk there are only the aliases. -/
def mntfsInit (devices modules : List Text) (virtuals : List (Text × Nat))
    (finds : Text → Text → Bool) (boot : Option Text) (mounts : List Text) : State :=
  let aliases := virtuals.map fun (name, id) => ⟨.top, name, .virt id⟩
  let bare := ⟨devices, ⟨modules.map (⟨·, []⟩), [], aliases⟩, 0⟩
  match boot with
  | none => { bare with next := 1 }
  | some dev =>
    let s := bootMount finds true bare dev
    if s.next = 0 then { bare with next := 1 } else mounts.foldl (bootMount finds false) s

/-! ## What the registries say -/

def Tables.Listed (t : Tables) (devname : Text) (m : Nat) : Prop :=
  ∃ d ∈ t.disks, d.devname = devname ∧ d.mount = m

def Counted (slots : List Slot) (devname : Text) (m : Nat) : Prop :=
  ∃ s ∈ slots, (devname, m) ∈ s.mounted

/-- The mount of the node, if it has one, is still counted by a module. -/
def Live (slots : List Slot) (n : Node) : Prop :=
  ∀ m, n.mount? = some m → ∃ devname, Counted slots devname m

def Tree.Backed (tree : Tree) : Prop := ∃ id name i, tree.virtuals id name = some (.inode i)

structure Law (tree : Tree) (t : Tables) : Prop where
  listed_iff : ∀ devname m, t.Listed devname m ↔ Counted t.slots devname m
  disk_names : (t.disks.map (·.devname)).Nodup
  slot_names : ∀ s ∈ t.slots, (s.mounted.map (·.1)).Nodup
  aliases_live : ∀ a ∈ t.aliases, Live t.slots a.target
  boot_disk : tree.Backed → ∃ d ∈ t.disks, d.mount = 0 ∧ d.hasSys

theorem mem_eraseP_key {α β : Type} [DecidableEq β] (key : α → β) (k : β) {l : List α}
    (distinct : (l.map key).Nodup) {x : α} :
    x ∈ l.eraseP (fun y => key y = k) ↔ x ∈ l ∧ key x ≠ k := by
  induction l with
  | nil => simp
  | cons y rest ih =>
    simp only [map_cons, nodup_cons, List.mem_map, not_exists, not_and] at distinct
    by_cases same : key y = k
    · rw [eraseP_cons_of_pos (by simpa using same), mem_cons]
      constructor
      · intro member
        exact ⟨.inr member, fun other => distinct.1 x member (other.trans same.symm)⟩
      · rintro ⟨rfl | member, other⟩
        · exact absurd same other
        · exact member
    · rw [eraseP_cons_of_neg (by simpa using same), mem_cons, ih distinct.2, mem_cons]
      constructor
      · rintro (rfl | ⟨member, other⟩)
        · exact ⟨.inl rfl, same⟩
        · exact ⟨.inr member, other⟩
      · rintro ⟨rfl | member, other⟩
        · exact .inl rfl
        · exact .inr ⟨member, other⟩

theorem nodup_eraseP_key {α β : Type} {key : α → β} {l : List α} (p : α → Bool)
    (distinct : (l.map key).Nodup) : ((l.eraseP p).map key).Nodup :=
  distinct.sublist ((eraseP_sublist).map key)

namespace Law

variable {tree : Tree} {t : Tables}

theorem disk_live (law : Law tree t) {d : Disk} (member : d ∈ t.disks) :
    ∃ devname, Counted t.slots devname d.mount :=
  ⟨d.devname, (law.listed_iff _ _).mp ⟨d, member, rfl, rfl⟩⟩

theorem walk_live (law : Law tree t) {dir n : Node} {name : Text} (live : Live t.slots dir)
    (found : walk tree t name dir = some n) : Live t.slots n := by
  have entry : ∀ (m : Nat) (e : Entry), (∀ i, e = .inode i → ∃ dev, Counted t.slots dev m) →
      Live t.slots (e.node m) := by
    intro m e inside k at_k
    cases e with
    | inode i => exact some.inj at_k ▸ inside i rfl
    | virt _ | link _ => cases at_k
  cases dir with
  | top =>
    obtain ⟨d, at_d, rfl⟩ := map_eq_some_iff.mp found
    intro m at_m
    exact some.inj at_m ▸ law.disk_live (mem_of_find?_eq_some at_d)
  | disk m =>
    simp only [walk] at found
    split at found
    · exact some.inj found ▸ live
    split at found
    · exact some.inj found ▸ live
    · cases found
  | raw m | file m i =>
    obtain ⟨e, _, rfl⟩ := map_eq_some_iff.mp found
    exact entry m e fun _ _ => live m rfl
  | sys m =>
    obtain ⟨id, _, rfl⟩ := map_eq_some_iff.mp found
    intro k at_k
    cases at_k
  | virt id =>
    obtain ⟨e, at_e, rfl⟩ := map_eq_some_iff.mp found
    apply entry 0 e
    intro i inode
    obtain ⟨d, member, zero, _⟩ := law.boot_disk ⟨id, name, i, inode ▸ at_e⟩
    exact zero ▸ law.disk_live member
  | link _ => cases found

theorem walkOne_live (law : Law tree t) {dir n : Node} {name : Text} (live : Live t.slots dir)
    (found : walkOne tree t dir name = some n) : Live t.slots n := by
  unfold walkOne at found
  split at found
  · split at found
    · rename_i target at_target
      obtain ⟨a, at_a, rfl⟩ := map_eq_some_iff.mp at_target
      exact some.inj found ▸ law.aliases_live a (mem_of_find?_eq_some at_a)
    · exact law.walk_live live found
  · cases found

theorem walkSegments_live (law : Law tree t) {follow : Node → List Text → Option Node}
    (later : ∀ cur segs n, Live t.slots cur → follow cur segs = some n → Live t.slots n) :
    ∀ (segs : List Text) {cur n : Node}, Live t.slots cur →
      walkSegments tree t follow cur segs = some n → Live t.slots n := by
  intro segs
  induction segs with
  | nil =>
    intro cur n live found
    exact some.inj found ▸ live
  | cons seg rest ih =>
    intro cur n live found
    rw [walkSegments] at found
    split at found
    · cases found
    split at found
    · exact ih live found
    split at found
    · cases found
    · cases found
    · apply later _ _ _ _ found
      split
      · intro m at_m
        cases at_m
      · exact live
    · rename_i node _ _ at_node
      exact ih (law.walkOne_live live at_node) found

theorem walkPathFollow_live (law : Law tree t) :
    ∀ (depth : Nat) (cur : Node) (segs : List Text) (n : Node), Live t.slots cur →
      walkPathFollow tree t depth cur segs = some n → Live t.slots n
  | 0, _, segs, _, live, found =>
    law.walkSegments_live (fun _ _ _ _ none => by cases none) segs live found
  | depth + 1, _, segs, _, live, found =>
    law.walkSegments_live (law.walkPathFollow_live depth) segs live found

theorem top_live (slots : List Slot) : Live slots .top := by
  intro m at_m
  cases at_m

/-! ## Taking a device out and putting it in -/

theorem vfsUmount (law : Law tree t) {host : Node} {name : Text} {u : Tables}
    (done : t.vfsUmount host name = some u) : Law tree u := by
  unfold Tables.vfsUmount at done
  split at done
  · rename_i i last _ at_last
    cases done
    refine ⟨law.listed_iff, law.disk_names, law.slot_names, ?_, law.boot_disk⟩
    intro a member
    apply law.aliases_live
    rcases mem_or_eq_of_mem_set (dropLast_subset _ member) with old | rfl
    · exact old
    · exact mem_of_getLast? at_last
  · cases done

theorem vfsMount (law : Law tree t) {host target : Node} {name : Text} {u : Tables}
    (live : Live t.slots target) (done : t.vfsMount host name target = some u) : Law tree u := by
  unfold Tables.vfsMount at done
  split at done
  · cases done
  split at done
  · cases done
  cases done
  refine ⟨law.listed_iff, law.disk_names, law.slot_names, ?_, law.boot_disk⟩
  intro a member
  rcases mem_append.mp member with old | new
  · exact law.aliases_live a old
  · rw [mem_singleton.mp new]
    exact live

theorem counted_unmountDev (law : Law tree t) (dev : Text) (devname : Text) (m : Nat) :
    Counted (fsModUnmountDev dev t.slots) devname m ↔
      Counted t.slots devname m ∧ devname ≠ dev := by
  simp only [Counted, fsModUnmountDev, List.mem_map, exists_exists_and_eq_and]
  constructor
  · rintro ⟨s, member, inside⟩
    have here := (mem_eraseP_key Prod.fst dev (law.slot_names s member)).mp inside
    exact ⟨⟨s, member, here.1⟩, here.2⟩
  · rintro ⟨⟨s, member, inside⟩, other⟩
    exact ⟨s, member, (mem_eraseP_key Prod.fst dev (law.slot_names s member)).mpr ⟨inside, other⟩⟩

theorem dropDevice (law : Law tree t) {d : Disk} (found : t.findDisk d.devname = some d)
    (slave : d.hasSys = false) (free : ∀ a ∈ t.aliases, a.target.mount? ≠ some d.mount) :
    Law tree (t.dropDevice d.devname) := by
  have gone : t.dropDevice d.devname =
      { t with slots := fsModUnmountDev d.devname t.slots,
               disks := t.disks.eraseP fun e => e.devname = d.devname } := by
    simp [Tables.dropDevice, Tables.mntfsUmountDisk, found, slave]
  rw [gone]
  have disks : ∀ e, e ∈ t.disks.eraseP (fun e => e.devname = d.devname) ↔
      e ∈ t.disks ∧ e.devname ≠ d.devname := fun e => mem_eraseP_key Disk.devname _ law.disk_names
  refine ⟨?_, nodup_eraseP_key _ law.disk_names, ?_, ?_, ?_⟩
  · intro devname m
    rw [law.counted_unmountDev, ← law.listed_iff]
    simp only [Tables.Listed, disks]
    constructor
    · rintro ⟨e, ⟨member, other⟩, rfl, same⟩
      exact ⟨⟨e, member, rfl, same⟩, other⟩
    · rintro ⟨⟨e, member, rfl, same⟩, other⟩
      exact ⟨e, ⟨member, other⟩, rfl, same⟩
  · intro s member
    obtain ⟨old, inside, rfl⟩ := mem_map.mp member
    exact nodup_eraseP_key _ (law.slot_names old inside)
  · intro a member m at_m
    obtain ⟨devname, counted⟩ := law.aliases_live a member m at_m
    refine ⟨devname, (law.counted_unmountDev _ _ _).mpr ⟨counted, ?_⟩⟩
    rintro rfl
    -- the alias leads into the disk's own mount, as device names are distinct
    obtain ⟨e, inside, name, rfl⟩ := (law.listed_iff _ _).mpr counted
    have same := inj_on_of_nodup_map law.disk_names inside (mem_of_find?_eq_some found) name
    exact free a member (same ▸ at_m)
  · intro backed
    obtain ⟨e, member, zero, master⟩ := law.boot_disk backed
    refine ⟨e, (disks e).mpr ⟨member, fun name => ?_⟩, zero, master⟩
    have same := inj_on_of_nodup_map law.disk_names member (mem_of_find?_eq_some found) name
    rw [same, slave] at master
    cases master

theorem not_counted (law : Law tree t) {dev : Text} (unmounted : t.findDisk dev = none) (m : Nat) :
    ¬ Counted t.slots dev m := by
  intro counted
  obtain ⟨d, member, name, _⟩ := (law.listed_iff _ _).mpr counted
  simpa [name] using find?_eq_none.mp unmounted d member

end Law

theorem fsModMount_some {dev : Text} {m : Nat} {accepts : Slot → Bool} {slots after : List Slot}
    (done : fsModMount dev m accepts slots = some after) :
    ∃ front s back, slots = front ++ s :: back ∧ slots.find? accepts = some s ∧
      after = front ++ s.noteMount dev m :: back := by
  induction slots generalizing after with
  | nil => cases done
  | cons s rest ih =>
    rw [fsModMount] at done
    split at done
    · rename_i yes
      exact ⟨[], s, rest, rfl, find?_cons_of_pos yes, (some.inj done).symm⟩
    rename_i no
    obtain ⟨later, at_later, rfl⟩ := map_eq_some_iff.mp done
    obtain ⟨front, found, back, parts, first, rfl⟩ := ih at_later
    exact ⟨s :: front, found, back, by rw [parts]; rfl,
      by rwa [find?_cons_of_neg no], rfl⟩

theorem unmountDev_of_not_counted {dev : Text} {slots : List Slot}
    (fresh : ∀ m, ¬ Counted slots dev m) : fsModUnmountDev dev slots = slots := by
  have same : ∀ s ∈ slots, { s with mounted := s.mounted.eraseP fun p => p.1 = dev } = s := by
    intro s member
    rw [eraseP_of_forall_not]
    intro p inside same
    exact fresh p.2 ⟨s, member, by rwa [← of_decide_eq_true same]⟩
  exact (map_congr_left same).trans (map_id' slots)

theorem unmountDev_mount {dev : Text} {m : Nat} {accepts : Slot → Bool} {slots after : List Slot}
    (fresh : ∀ m, ¬ Counted slots dev m) (done : fsModMount dev m accepts slots = some after) :
    fsModUnmountDev dev after = slots := by
  obtain ⟨front, s, back, rfl, _, rfl⟩ := fsModMount_some done
  have old := unmountDev_of_not_counted fresh
  simp only [fsModUnmountDev, map_append, map_cons] at old ⊢
  rw [Slot.noteMount]
  split
  · exact old
  split
  · exact old
  rename_i absent _
  rw [eraseP_append_right]
  · obtain ⟨front_same, rest_same⟩ := append_inj old (by simp)
    rw [front_same, (cons.inj rest_same).2]
    simp
  · intro p inside same
    exact absent (mem_map.mpr ⟨p, inside, of_decide_eq_true same⟩)

theorem dropDevice_addDisk {t : Tables} {slots : List Slot} {dev : Text} {m : Nat}
    (unmounted : t.findDisk dev = none) (undone : fsModUnmountDev dev slots = t.slots) :
    (t.addDisk slots ⟨dev, m, false⟩).dropDevice dev = t := by
  have others : ∀ d ∈ t.disks, ¬ d.devname = dev := by
    simpa using find?_eq_none.mp unmounted
  have found : (t.addDisk slots ⟨dev, m, false⟩).findDisk dev = some ⟨dev, m, false⟩ := by
    rw [Tables.findDisk, Tables.addDisk, find?_append, ← Tables.findDisk, unmounted]
    simp
  simp only [Tables.dropDevice, Tables.mntfsUmountDisk, found, Bool.false_eq_true, if_false]
  simp only [Tables.addDisk, undone]
  rw [eraseP_append_right _ (by simpa using others)]
  simp

theorem Law.addDisk {tree : Tree} {t : Tables} (law : Law tree t) {dev : Text} {m : Nat}
    {accepts : Slot → Bool} {slots : List Slot} {hasSys : Bool}
    (unmounted : t.findDisk dev = none)
    (room : ∀ s, t.slots.find? accepts = some s → s.mounted.length < fsModMaxMounts)
    (done : fsModMount dev m accepts t.slots = some slots) :
    Law tree (t.addDisk slots ⟨dev, m, hasSys⟩) := by
  have fresh := law.not_counted unmounted
  obtain ⟨front, s, back, parts, first, rfl⟩ := fsModMount_some done
  have inside : s ∈ t.slots := mem_of_find?_eq_some first
  have absent : dev ∉ s.mounted.map (·.1) := by
    intro named
    obtain ⟨p, member, rfl⟩ := mem_map.mp named
    exact fresh p.2 ⟨s, inside, member⟩
  have noted : s.noteMount dev m = { s with mounted := s.mounted ++ [(dev, m)] } := by
    rw [Slot.noteMount, if_neg absent, if_neg (Nat.not_le.mpr (room s first))]
  have counted : ∀ devname k, Counted (front ++ s.noteMount dev m :: back) devname k ↔
      Counted t.slots devname k ∨ (dev = devname ∧ m = k) := by
    simp only [Counted, parts, noted, mem_append, mem_cons, or_and_right, exists_or,
      exists_eq_left, not_mem_nil, or_false, Prod.mk.injEq, @eq_comm _ dev, @eq_comm _ m]
    grind
  refine ⟨?_, ?_, ?_, ?_, ?_⟩
  · intro devname k
    rw [show (t.addDisk _ _).slots = front ++ s.noteMount dev m :: back from rfl, counted,
      ← law.listed_iff]
    simp [Tables.Listed, Tables.addDisk]
  · have others : ∀ d ∈ t.disks, ¬ d.devname = dev := by
      simpa using find?_eq_none.mp unmounted
    simpa [Tables.addDisk, nodup_append, law.disk_names] using others
  · intro slot member
    rcases mem_append.mp member with old | new
    · exact law.slot_names slot (parts ▸ mem_append_left _ old)
    rcases mem_cons.mp new with rfl | old
    · have names := law.slot_names s inside
      rw [noted, map_append, nodup_append]
      refine ⟨names, by simp, fun name named other new => ?_⟩
      rintro rfl
      rw [mem_singleton.mp new] at named
      exact absent named
    · exact law.slot_names slot (parts ▸ mem_append_right _ (mem_cons_of_mem _ old))
  · intro a member k at_k
    obtain ⟨devname, known⟩ := law.aliases_live a member k at_k
    exact ⟨devname, (counted _ _).mpr (.inl known)⟩
  · intro backed
    obtain ⟨d, member, zero⟩ := law.boot_disk backed
    exact ⟨d, mem_append_left _ member, zero⟩

/-! ## One request -/

/-- A device goes to a module with room, and only a disk that is not the boot disk
and that no mount-table entry leads into is taken out. -/
def Guard (tree : Tree) (s : State) : Request → Prop
  | .mount _ _ _ _ fstype finds _ =>
    ∀ slot, s.tables.slots.find? (chosen (fstype.getD []) finds) = some slot →
      slot.mounted.length < fsModMaxMounts
  | .umount _ cwd target =>
    umountAlias tree s.tables cwd target = none → ∀ d, umountDevice s target = some d →
      d.hasSys = false ∧ ∀ a ∈ s.tables.aliases, a.target.mount? ≠ some d.mount

/-- An error changes no registry, and what the guard admits keeps the law. -/
structure Kept (tree : Tree) (s : State) (guard : Prop) (answer : State × Int) : Prop where
  refused : answer.2 ≠ 0 → answer.1.tables = s.tables
  law : guard → Law tree answer.1.tables

section Requests

variable {tree : Tree} {s : State}

theorem Kept.same {guard : Prop} {t : State} {code : Int} (law : Law tree s.tables)
    (same : t.tables = s.tables) : Kept tree s guard (t, code) :=
  ⟨fun _ => same, fun _ => same ▸ law⟩

theorem Kept.done {guard : Prop} {t : State} (law : guard → Law tree t.tables) :
    Kept tree s guard (t, 0) :=
  ⟨fun failed => absurd rfl failed, law⟩

theorem mountBlkdev_kept (law : Law tree s.tables) (cwd src : Text) (target : Option Text)
    (fstype : Text) (finds : Text → Bool) (memory : Bool) :
    Kept tree s (∀ slot, s.tables.slots.find? (chosen fstype finds) = some slot →
      slot.mounted.length < fsModMaxMounts)
      (mountBlkdev tree s cwd src target fstype finds memory) := by
  unfold mountBlkdev
  dsimp only
  split
  · exact .same law rfl
  split
  · exact .same law rfl
  rename_i idle
  have unmounted := not_isSome_iff_eq_none.mp idle
  split
  · exact .same law rfl
  rename_i slots mounted
  have undone := unmountDev_mount (law.not_counted unmounted) mounted
  have dropped := @dropDevice_addDisk _ _ _ s.next unmounted undone
  split
  · exact .same law (by rw [undone])
  split
  · exact .done fun room => law.addDisk unmounted room mounted
  · exact .done fun room => law.addDisk unmounted room mounted
  split
  · exact .same law dropped
  split
  · exact .same law dropped
  rename_i u bound
  apply Kept.done
  intro room
  have added := @Law.addDisk _ _ law _ _ _ _ false unmounted room mounted
  apply added.vfsMount _ bound
  intro m at_m
  cases at_m
  exact added.disk_live (mem_append_right _ (mem_singleton_self _))

theorem aliasMount_kept (law : Law tree s.tables) (guard : Prop) (cwd src : Text)
    (target : Option Text) : Kept tree s guard (aliasMount tree s cwd src target) := by
  unfold aliasMount
  split
  · exact .same law rfl
  · exact .same law rfl
  rename_i node path found
  split
  · exact .same law rfl
  split
  · exact .same law rfl
  rename_i u bound
  have live := law.walkPathFollow_live _ _ _ _ (Law.top_live _) found
  exact .done fun _ => law.vfsMount live bound

theorem umountDevice_some {target : Text} {d : Disk} (found : umountDevice s target = some d) :
    s.tables.findDisk d.devname = some d := by
  simp only [umountDevice] at found
  split at found
  · have name := find?_some found
    rwa [of_decide_eq_true name]
  · cases found

theorem serve_kept (law : Law tree s.tables) (r : Request) :
    Kept tree s (Guard tree s r) (serve tree s r) := by
  cases r with
  | mount refusal cwd src target fstype finds memory =>
    simp only [serve]
    split
    · exact .same law rfl
    split
    · exact aliasMount_kept law _ cwd src target
    · exact aliasMount_kept law _ cwd src target
    · exact mountBlkdev_kept law cwd src target _ finds memory
  | umount refusal cwd target =>
    simp only [serve]
    split
    · exact .same law rfl
    rw [sysUmount]
    split
    · rename_i u gone
      obtain ⟨at_parent, _, removed⟩ := bind_eq_some_iff.mp gone
      exact .done fun _ => law.vfsUmount removed
    rename_i no_alias
    split
    · rename_i d found
      apply Kept.done
      intro guard
      obtain ⟨slave, free⟩ := guard no_alias d found
      exact law.dropDevice (umountDevice_some found) slave free
    · exact .same law rfl

end Requests

/-! ## Boot and runs -/

/-- At most one more device than a module can count is mounted at boot, and the
virtual trees lead into a boot disk only when there is one. -/
def Booted (tree : Tree) (s : State) : Prop :=
  ∃ devices modules virtuals finds boot mounts, mounts.length < fsModMaxMounts ∧
    s = mntfsInit devices modules virtuals finds boot mounts ∧
    (tree.Backed → ∃ d ∈ s.tables.disks, d.hasSys)

def Step (tree : Tree) (s : State) (r : Request) (t : State) : Prop := (serve tree s r).1 = t

structure Consistent (tree : Tree) (s : State) : Prop where
  refused : ∀ r, (serve tree s r).2 ≠ 0 → (serve tree s r).1.tables = s.tables
  counted : ∀ devname, (∃ d ∈ s.tables.disks, d.devname = devname) ↔
    ∃ slot ∈ s.tables.slots, devname ∈ slot.mounted.map (·.1)
  paths : ∀ cwd path n m, resolvePath tree s.tables cwd path = some n → n.mount? = some m →
    ∃ devname, Counted s.tables.slots devname m

theorem Law.consistent {tree : Tree} {s : State} (law : Law tree s.tables) : Consistent tree s where
  refused r := (serve_kept law r).refused
  counted devname := by
    simp only [List.mem_map, Prod.exists, exists_and_right, exists_eq_right]
    constructor
    · rintro ⟨d, member, rfl⟩
      obtain ⟨slot, inside, counted⟩ := (law.listed_iff _ _).mp ⟨d, member, rfl, rfl⟩
      exact ⟨slot, inside, _, counted⟩
    · rintro ⟨slot, inside, m, counted⟩
      obtain ⟨d, member, name, _⟩ := (law.listed_iff _ _).mpr ⟨slot, inside, counted⟩
      exact ⟨d, member, name⟩
  paths _ _ n m found := law.walkPathFollow_live _ _ _ n (Law.top_live _) found m

/-- The registries after the first `n` mounts of the boot. -/
structure Booting (s : State) (n : Nat) : Prop where
  law : ∀ tree : Tree, ¬ tree.Backed → Law tree s.tables
  counts : ∀ slot ∈ s.tables.slots, slot.mounted.length ≤ n
  master : ∀ d ∈ s.tables.disks, d.hasSys → d.mount = 0

theorem Booting.mount {s : State} {n : Nat} (booting : Booting s n) (room : n < fsModMaxMounts)
    (finds : Text → Text → Bool) (hasSys : Bool) (first : hasSys → s.next = 0) (dev : Text) :
    Booting (bootMount finds hasSys s dev) (n + 1) := by
  have later : Booting s (n + 1) :=
    ⟨booting.law, fun slot member => le_succ_of_le (booting.counts slot member), booting.master⟩
  unfold bootMount
  split
  · exact later
  rename_i free
  split
  · exact later
  rename_i slots mounted
  have unmounted := not_isSome_iff_eq_none.mp (not_or.mp free).2
  refine ⟨fun tree bare => ?_, ?_, ?_⟩
  · apply (booting.law tree bare).addDisk unmounted _ mounted
    intro slot found
    exact Nat.lt_of_le_of_lt (booting.counts slot (mem_of_find?_eq_some found)) room
  · obtain ⟨front, s, back, parts, _, rfl⟩ := fsModMount_some mounted
    intro slot member
    rcases mem_append.mp member with old | new
    · exact later.counts slot (parts ▸ mem_append_left _ old)
    rcases mem_cons.mp new with rfl | old
    · have before := booting.counts s (parts ▸ mem_append_right _ mem_cons_self)
      rw [Slot.noteMount]
      split
      · exact le_succ_of_le before
      split
      · exact le_succ_of_le before
      · simpa using before
    · exact later.counts slot (parts ▸ mem_append_right _ (mem_cons_of_mem _ old))
  · intro d member master
    rcases mem_append.mp member with old | new
    · exact booting.master d old master
    · rw [mem_singleton.mp new] at master ⊢
      exact first master

theorem Booting.mounts (finds : Text → Text → Bool) :
    ∀ (mounts : List Text) {s : State} {n : Nat}, Booting s n →
      n + mounts.length ≤ fsModMaxMounts →
      ∃ k, Booting (mounts.foldl (bootMount finds false) s) k := by
  intro mounts
  induction mounts with
  | nil => exact fun booting _ => ⟨_, booting⟩
  | cons dev rest ih =>
    intro s n booting room
    rw [length_cons] at room
    exact ih (booting.mount (by omega) finds false (by simp) dev) (by omega)

theorem Booted.law {tree : Tree} {s : State} (booted : Booted tree s) : Law tree s.tables := by
  obtain ⟨devices, modules, virtuals, finds, boot, mounts, few, rfl, disk⟩ := booted
  have bare : ∀ next, Booting ⟨devices, ⟨modules.map (⟨·, []⟩), [],
      virtuals.map fun (name, id) => ⟨.top, name, .virt id⟩⟩, next⟩ 0 := by
    intro next
    refine ⟨fun tree unbacked => ⟨?_, by simp, by simp, ?_, fun backed => absurd backed unbacked⟩,
      by simp, by simp⟩
    · simp [Tables.Listed, Counted]
    · intro a member m at_m
      obtain ⟨_, _, rfl⟩ := mem_map.mp member
      cases at_m
  have booting : ∃ k, Booting (mntfsInit devices modules virtuals finds boot mounts) k := by
    unfold mntfsInit
    cases boot with
    | none => exact ⟨0, bare 1⟩
    | some dev =>
      dsimp only
      split
      · exact ⟨0, bare 1⟩
      · exact ((bare 0).mount (by decide) finds true (fun _ => rfl) dev).mounts finds mounts
          (by omega)
  obtain ⟨k, booting⟩ := booting
  have void := booting.law ⟨fun _ _ _ => none, fun _ _ => none, fun _ => none, fun _ => true⟩
    (by simp [Tree.Backed])
  refine ⟨void.listed_iff, void.disk_names, void.slot_names, void.aliases_live, fun backed => ?_⟩
  obtain ⟨d, member, master⟩ := disk backed
  exact ⟨d, member, booting.master d member master, master⟩

/-- Along runs in which devices go to modules with room, and only disks are taken out
that are not the boot disk and that no alias leads into, an error leaves the
registries as they were, the disk list and the modules agree, and no path leads into
a filesystem that has been unmounted. -/
theorem mounts_consistent {tree : Tree} {s : State}
    (run : Lib.Reach (Booted tree) (Lib.restrict (Guard tree) (Step tree)) s) :
    Consistent tree s := by
  have law : Law tree s.tables := by
    refine Lib.Reach.invariant (fun s => Law tree s.tables) (fun _ booted => booted.law) ?_ run
    rintro s r t before ⟨guard, rfl⟩
    exact (serve_kept before r).law guard
  exact law.consistent

/-- A tree with nothing in it. -/
def bareTree : Tree := ⟨fun _ _ _ => none, fun _ _ => none, fun _ => none, fun _ => true⟩

def twoDisks : State :=
  mntfsInit ["sda".toList, "sdb".toList] ["ext4".toList] [("dev".toList, 0)] (fun _ _ => true)
    (some "sda".toList) []

theorem twoDisks_booted : Booted bareTree twoDisks :=
  ⟨_, _, _, _, _, [], by decide, rfl, by simp [Tree.Backed, bareTree]⟩

/-- The second disk is mounted with an alias. -/
def mountSecond : Request :=
  .mount 0 [] "/dev/sdb".toList (some "/mnt".toList) (some "ext4".toList) (fun _ => true) true

theorem mounts_consistent_second :
    (serve bareTree twoDisks mountSecond).2 = 0 ∧
      Consistent bareTree (serve bareTree twoDisks mountSecond).1 := by
  refine ⟨by decide +kernel, mounts_consistent ((Lib.Reach.start twoDisks_booted).next
    (a := mountSecond) ⟨?_, rfl⟩)⟩
  intro slot found
  have slots : twoDisks.tables.slots.all fun slot => slot.mounted.length < fsModMaxMounts := by
    decide +kernel
  simpa using all_eq_true.mp slots slot (mem_of_find?_eq_some found)

/-- UMOUNT of the boot disk answers success; its disk entry stays, but its module no
longer counts it. -/
theorem boot_disk_uncounted :
    ¬ ∀ (tree : Tree) (s : State), Lib.Reach (Booted tree) (Step tree) s → Consistent tree s := by
  intro always
  have reached : Lib.Reach (Booted bareTree) (Step bareTree)
      (serve bareTree twoDisks (.umount 0 [] "/sda".toList)).1 := .next (.start twoDisks_booted) rfl
  exact absurd ((always _ _ reached).counted "sda".toList) (by decide +kernel)

end CactKernel.Mounts
