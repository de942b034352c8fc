import CactKernel.Lib.Reach
import CactKernel.Vfs.Calls
import Mathlib.Data.Nat.Bitwise

/-! # Access control on files

What a call can do is said once: a call of a process is a chain of `Effect`s, and
each effect on a node is justified by a permission check in the state before it,
or by a descriptor that was opened for it. The calls that skip the check, or do
not look at the access mode of the descriptor, are chains of effects only where
`Honest` supplies the justification. -/

set_option autoImplicit false

namespace CactKernel.Vfs

open Lib Relation List Option Nat Reach

section

variable {δ : Type}

/-! ## Permission bits -/

variable {a p q : Nat}

theorem and_left_of_or (both : a &&& (p ||| q) = p ||| q) : a &&& p = p := by
  apply eq_of_testBit_eq
  intro i
  have bit := congrArg (fun x => x.testBit i) both
  simp only [testBit_and, testBit_or] at bit ⊢
  cases first : a.testBit i <;> cases second : p.testBit i <;> simp_all

variable {node : Inode δ}

theorem checkPerm_left {c : Cred} (both : vfsCheckPerm c node (p ||| q) = true) :
    vfsCheckPerm c node p = true := by
  unfold vfsCheckPerm at both ⊢
  split
  · rfl
  rename_i hasMode
  rw [if_neg hasMode] at both
  split
  · rfl
  rename_i user
  rw [if_neg user] at both
  split
  · rfl
  rename_i plain
  rw [if_neg plain] at both
  simp only [beq_iff_eq] at both ⊢
  exact and_left_of_or both

theorem checkPerm_right {c : Cred} (both : vfsCheckPerm c node (p ||| q) = true) :
    vfsCheckPerm c node q = true :=
  checkPerm_left (Nat.or_comm p q ▸ both)

/-! ## Effects -/

def MayRead (c : Cred) (s : Session δ) (n : Nat) (node : Inode δ) : Prop :=
  vfsCheckPerm c node permRead = true ∨ ∃ f ∈ s.files, f.node = n ∧ asksRead f.flags = true

def MayWrite (c : Cred) (s : Session δ) (n : Nat) (node : Inode δ) : Prop :=
  vfsCheckPerm c node permWrite = true ∨ ∃ f ∈ s.files, f.node = n ∧ asksWrite f.flags = true

inductive Effect (c : Cred) : Session δ → Session δ → Prop
  | fds (s : Session δ) (fds : List (Option Nat)) : Effect c s { s with fds := fds }
  | file {s : Session δ} {i : Nat} {f : OpenFile} (g : OpenFile) (found : s.files[i]? = some f)
      (node : g.node = f.node) (mode : accmode g.flags = accmode f.flags) :
      Effect c s (s.setFile i g)
  | make {s : Session δ} {n : Nat} {node : Inode δ} {flags : Nat}
      (found : s.nodes[n]? = some node)
      (reads : asksRead flags = true → vfsCheckPerm c node permRead = true)
      (writes : asksWrite flags = true → vfsCheckPerm c node permWrite = true) :
      Effect c s { s with files := s.files ++ [⟨n, 0, flags, false⟩] }
  | edit {s : Session δ} {n : Nat} {node : Inode δ} (size : Nat) (data : δ)
      (found : s.nodes[n]? = some node) (allowed : MayWrite c s n node) :
      Effect c s (s.setNode n { node with size := size, data := data })
  | chmod {s : Session δ} {n : Nat} {node : Inode δ} (mode : Nat)
      (found : s.nodes[n]? = some node)
      (noGain : ∀ perm, perm = permRead ∨ perm = permWrite →
        vfsCheckPerm c { node with mode := mode } perm = true → vfsCheckPerm c node perm = true) :
      Effect c s (s.setNode n { node with mode := mode })
  | fresh (s : Session δ) (x : Inode δ) : Effect c s { s with nodes := s.nodes ++ [x] }
  | give {s : Session δ} {n : Nat} {node : Inode δ} (piece : Piece)
      (found : s.nodes[n]? = some node) (allowed : MayRead c s n node) :
      Effect c s (s.give n piece)

abbrev Effects (c : Cred) : Session δ → Session δ → Prop := ReflTransGen (Effect c)

/-! ## A node that the process may not read or not write -/

structure Guarded (c : Cred) (n : Nat) (node : Inode δ) (s : Session δ) : Prop where
  present : ∃ now, s.nodes[n]? = some now ∧
    (∀ perm, perm = permRead ∨ perm = permWrite →
      vfsCheckPerm c now perm = true → vfsCheckPerm c node perm = true) ∧
    (vfsCheckPerm c node permWrite = false → now.size = node.size ∧ now.data = node.data)
  unread : vfsCheckPerm c node permRead = false →
    (∀ f ∈ s.files, f.node = n → asksRead f.flags = false) ∧ ∀ e ∈ s.returned, e.1 ≠ n
  unwritten : vfsCheckPerm c node permWrite = false →
    ∀ f ∈ s.files, f.node = n → asksWrite f.flags = false

theorem asksRead_congr {b : Nat} (same : accmode a = accmode b) : asksRead a = asksRead b := by
  simp only [asksRead, same]

theorem asksWrite_congr {b : Nat} (same : accmode a = accmode b) : asksWrite a = asksWrite b := by
  simp only [asksWrite, same]

namespace Guarded

variable {c : Cred} {n : Nat} {node : Inode δ} {s t : Session δ}

theorem setNode (guarded : Guarded c n node s) {m : Nat} {now : Inode δ} (x : Inode δ)
    (found : s.nodes[m]? = some now)
    (perms : ∀ perm, perm = permRead ∨ perm = permWrite →
      vfsCheckPerm c x perm = true → vfsCheckPerm c now perm = true)
    (contents : m = n → vfsCheckPerm c node permWrite = false →
      x.size = now.size ∧ x.data = now.data) : Guarded c n node (s.setNode m x) := by
  refine ⟨?_, guarded.unread, guarded.unwritten⟩
  obtain ⟨current, place, kept, same⟩ := guarded.present
  by_cases here : m = n
  · subst here
    rw [place] at found
    cases found
    refine ⟨x, ?_, fun perm which passes => kept perm which (perms perm which passes), ?_⟩
    · exact List.getElem?_set_self (List.getElem?_eq_some_iff.mp place).1
    · intro denied
      obtain ⟨size, data⟩ := contents rfl denied
      obtain ⟨size', data'⟩ := same denied
      exact ⟨size.trans size', data.trans data'⟩
  · exact ⟨current, by rw [← place]; exact getElem?_set_ne here, kept, same⟩

theorem effect (guarded : Guarded c n node s) (step : Effect c s t) : Guarded c n node t := by
  cases step with
  | fds fds => exact ⟨guarded.present, guarded.unread, guarded.unwritten⟩
  | @file i f g found place mode =>
    have member : f ∈ s.files := mem_of_getElem? found
    refine ⟨guarded.present, fun denied => ⟨fun h here at_n => ?_, (guarded.unread denied).2⟩,
      fun denied h here at_n => ?_⟩
    · rcases mem_or_eq_of_mem_set here with old | rfl
      · exact (guarded.unread denied).1 h old at_n
      · rw [asksRead_congr mode]
        exact (guarded.unread denied).1 f member (place ▸ at_n)
    · rcases mem_or_eq_of_mem_set here with old | rfl
      · exact guarded.unwritten denied h old at_n
      · rw [asksWrite_congr mode]
        exact guarded.unwritten denied f member (place ▸ at_n)
  | @make m now flags found reads writes =>
    obtain ⟨current, place, kept, same⟩ := guarded.present
    have refused : ∀ perm, perm = permRead ∨ perm = permWrite → m = n →
        vfsCheckPerm c node perm = false → vfsCheckPerm c now perm = false := by
      intro perm which here denied
      subst here
      rw [place] at found
      cases found
      by_contra passes
      have gained := kept perm which (by simpa using passes)
      rw [gained] at denied
      cases denied
    refine ⟨guarded.present, fun denied => ⟨fun h here at_n => ?_, (guarded.unread denied).2⟩,
      fun denied h here at_n => ?_⟩
    · rcases mem_append.mp here with old | new
      · exact (guarded.unread denied).1 h old at_n
      rw [mem_singleton] at new
      subst new
      by_contra asked
      have shut := refused permRead (.inl rfl) at_n denied
      rw [reads (by simpa using asked)] at shut
      cases shut
    · rcases mem_append.mp here with old | new
      · exact guarded.unwritten denied h old at_n
      rw [mem_singleton] at new
      subst new
      by_contra asked
      have shut := refused permWrite (.inr rfl) at_n denied
      rw [writes (by simpa using asked)] at shut
      cases shut
  | @edit m now size data found allowed =>
    refine guarded.setNode _ found (fun _ _ passes => passes) ?_
    intro here denied
    subst here
    obtain ⟨current, place, kept, _⟩ := guarded.present
    rw [place] at found
    cases found
    rcases allowed with passes | ⟨f, member, at_n, asked⟩
    · rw [kept permWrite (.inr rfl) passes] at denied
      cases denied
    · rw [guarded.unwritten denied f member at_n] at asked
      cases asked
  | @chmod m now mode found noGain =>
    exact guarded.setNode _ found noGain fun _ _ => ⟨rfl, rfl⟩
  | fresh x =>
    obtain ⟨current, place, rest⟩ := guarded.present
    refine ⟨⟨current, ?_, rest⟩, guarded.unread, guarded.unwritten⟩
    dsimp only
    rw [List.getElem?_append_left (List.getElem?_eq_some_iff.mp place).1]
    exact place
  | @give m now piece found allowed =>
    refine ⟨guarded.present, fun denied => ⟨(guarded.unread denied).1, fun e member => ?_⟩,
      guarded.unwritten⟩
    rcases mem_append.mp member with old | new
    · exact (guarded.unread denied).2 e old
    rw [mem_singleton] at new
    subst new
    rintro rfl
    obtain ⟨current, place, kept, _⟩ := guarded.present
    rw [place] at found
    cases found
    rcases allowed with passes | ⟨f, held, at_n, asked⟩
    · rw [kept permRead (.inl rfl) passes] at denied
      cases denied
    · rw [(guarded.unread denied).1 f held at_n] at asked
      cases asked

theorem effects (guarded : Guarded c n node s) (chain : Effects c s t) : Guarded c n node t := by
  induction chain with
  | refl => exact guarded
  | tail _ step ih => exact ih.effect step

end Guarded

/-! ## What the calls do -/

namespace Session

variable {fs : FileSystem δ} {c : Cred} {s : Session δ} {fd i n : Nat} {f : OpenFile}
  {node : Inode δ}

theorem getFile_some (found : s.getFile fd = some (i, f)) : s.files[i]? = some f := by
  unfold getFile at found
  split at found
  · obtain ⟨g, place, pair⟩ := map_eq_some_iff.mp found
    cases pair
    exact place
  · cases found

theorem getNode_some (found : s.getNode fd = some (n, node)) :
    s.nodes[n]? = some node ∧ ∃ i f, s.getFile fd = some (i, f) ∧ f.node = n := by
  unfold getNode at found
  split at found
  · rename_i j g file
    obtain ⟨x, place, pair⟩ := map_eq_some_iff.mp found
    cases pair
    exact ⟨place, j, g, file, rfl⟩
  · cases found

theorem mayWrite_of_file (found : s.getFile fd = some (i, f)) (asked : asksWrite f.flags = true) :
    MayWrite c s f.node node :=
  .inr ⟨f, mem_of_getElem? (getFile_some found), rfl, asked⟩

theorem mayRead_of_file (found : s.getFile fd = some (i, f)) (asked : asksRead f.flags = true) :
    MayRead c s f.node node :=
  .inr ⟨f, mem_of_getElem? (getFile_some found), rfl, asked⟩

theorem setFd_effects (s : Session δ) (fd : Nat) (x : Option Nat) : Effects c s (s.setFd fd x) :=
  .single (.fds s _)

theorem truncateVfs_effects (length : Nat)
    (allowed : ∀ node, s.nodes[n]? = some node → MayWrite c s n node) :
    Effects c s (s.truncateVfs fs n length).2 := by
  unfold truncateVfs
  split
  · exact .refl
  rename_i node found
  split
  · exact .single (.edit _ _ found (allowed node found))
  · exact .single (.edit length node.data found (allowed node found))

theorem addNode_effects (fs : FileSystem δ) (dir : Nat) (name : Name) (x : Inode δ)
    (allowed : ∀ node, s.nodes[dir]? = some node → vfsCheckPerm c node permWrite = true) :
    Effects c s (s.addNode fs dir name x).2 := by
  unfold addNode
  split
  · exact .refl
  rename_i node found
  split
  · exact .refl
  split
  · exact .refl
  rename_i data _
  have edited : Effect c s (s.setNode dir { node with data := data }) :=
    .edit node.size data found (.inl (allowed node found))
  exact (ReflTransGen.single edited).tail (.fresh _ x)

theorem editDir_effects (dir : Nat) (edit : δ → Option δ)
    (allowed : ∀ node, s.nodes[dir]? = some node → vfsCheckPerm c node permWrite = true) :
    Effects c s (s.editDir dir edit).2 := by
  unfold editDir
  split
  · exact .refl
  rename_i node found
  split
  · exact .refl
  split
  · exact .refl
  · exact .single (.edit node.size _ found (.inl (allowed node found)))

theorem openNode_effects (n flags : Nat) (denied full failed : Int) :
    Effects c s (s.openNode fs c n flags denied full failed).2 := by
  unfold openNode
  split
  · exact .refl
  rename_i node found
  dsimp only
  split
  · exact .refl
  rename_i passed
  rw [Bool.not_eq_false] at passed
  have reads : asksRead flags = true → vfsCheckPerm c node permRead = true := by
    intro asked
    rw [neededPerm, asked, if_pos rfl] at passed
    exact checkPerm_left passed
  have writes : asksWrite flags = true → vfsCheckPerm c node permWrite = true := by
    intro asked
    rw [neededPerm, asked, if_pos rfl] at passed
    exact checkPerm_right passed
  have made : Effects c s { s with files := s.files ++ [⟨n, 0, flags, false⟩] } :=
    .single (.make found reads writes)
  split
  · exact made
  rename_i slot _
  have filled := made.trans (setFd_effects _ slot (some s.files.length))
  split
  · rename_i truncating
    -- the file is cut only when it was opened for writing
    have asked : asksWrite flags = true := by
      rcases truncating.2 with mode | mode <;> simp [asksWrite, mode, openWronly, openRdwr]
    have cut : ∀ start : Session δ, start.nodes = s.nodes →
        Effects c start (start.truncateVfs fs n 0).2 := by
      intro start same
      refine truncateVfs_effects 0 fun x place => .inl ?_
      rw [same, found] at place
      cases place
      exact writes asked
    have whole := filled.trans (cut _ rfl)
    split
    · rename_i after eq
      rw [eq] at whole
      exact whole
    · rename_i code after _ eq
      rw [eq] at whole
      exact whole.trans (setFd_effects _ slot none)
  · exact filled

theorem dirWx_write (passed : vfsCheckPerm c node (permWrite ||| permExec) = true) :
    vfsCheckPerm c node permWrite = true :=
  checkPerm_left passed

theorem sysOpen_effects (path : Name) (flags : Nat) :
    Effects c s (s.sysOpen fs c path flags).2 := by
  unfold sysOpen
  split
  · exact openNode_effects _ flags _ _ _
  split
  · exact .refl
  split
  · exact .refl
  rename_i parent base _
  split
  · exact .refl
  rename_i dir found
  split
  · exact .refl
  rename_i passed
  simp only [not_or, Bool.not_eq_false] at passed
  have made := addNode_effects fs parent base (fs.create .file)
    fun node place => by
      rw [found] at place
      cases place
      exact dirWx_write (c := c) passed.2
  split
  · rename_i after eq
    rw [eq] at made
    split
    · exact made.trans (openNode_effects _ flags _ _ _)
    · exact made
  · rename_i code after _ eq
    rw [eq] at made
    exact made

variable {body : Nat → Inode δ → Int × Session δ}

theorem onDir_effects
    (each : ∀ n node, s.getNode fd = some (n, node) → Effects c s (body n node).2) :
    Effects c s (s.onDir fd body).2 := by
  unfold onDir
  split
  · exact .refl
  rename_i n node found
  split
  · exact .refl
  · exact each n node found

theorem onEntry_effects {name : Name}
    (each : ∀ dir x n node, s.getNode fd = some (dir, x) → fs.walk x.data name = some n →
      s.nodes[n]? = some node → Effects c s (body n node).2) :
    Effects c s (s.onEntry fs fd name body).2 := by
  unfold onEntry
  refine onDir_effects fun dir x directory => ?_
  split
  · exact .refl
  split
  · exact .refl
  rename_i n node found
  obtain ⟨m, walked, rest⟩ := bind_eq_some_iff.mp found
  obtain ⟨y, place, pair⟩ := map_eq_some_iff.mp rest
  cases pair
  exact each dir x n node directory walked place

theorem file_effects {g : OpenFile} (found : s.getFile fd = some (i, f)) (place : g.node = f.node)
    (mode : accmode g.flags = accmode f.flags) : Effects c s (s.setFile i g) :=
  .single (.file g (getFile_some found) place mode)

/-- The mode that `chmod_vfs` leaves. -/
def newMode (fs : FileSystem δ) (node : Inode δ) (mode : Nat) : Nat :=
  match fs.chmod with
  | some op => (op node mode).2
  | none => mode &&& 0o777

/-- Reads and listings go through descriptors opened for reading, writes and
truncations through descriptors opened for writing; a device node is made only in a
directory that the process may change, a link is read only with permission, and a
change of mode gives its owner no permission that was missing. -/
def Honest (fs : FileSystem δ) (c : Cred) (s : Session δ) : FileCall → Prop
  | .read fd _ => ∀ i f, s.getFile fd = some (i, f) → asksRead f.flags = true
  | .getdents fd _ => ∀ i f, s.getFile fd = some (i, f) → asksRead f.flags = true
  | .write fd _ => ∀ i f, s.getFile fd = some (i, f) → asksWrite f.flags = true
  | .ftruncate fd _ => ∀ i f, s.getFile fd = some (i, f) → asksWrite f.flags = true
  | .mknod fd _ _ => ∀ dir node, s.getNode fd = some (dir, node) →
      vfsCheckPerm c node (permWrite ||| permExec) = true
  | .readlink fd name _ => ∀ dir x n node, s.getNode fd = some (dir, x) →
      fs.walk x.data name = some n → s.nodes[n]? = some node →
      vfsCheckPerm c node permRead = true
  | .chmod fd name mode => ∀ dir x n node, s.getNode fd = some (dir, x) →
      fs.walk x.data name = some n → s.nodes[n]? = some node →
      ∀ perm, perm = permRead ∨ perm = permWrite →
        vfsCheckPerm c { node with mode := newMode fs node mode } perm = true →
        vfsCheckPerm c node perm = true
  | _ => True

theorem sysRead_effects (size : Nat) (asked : Honest fs c s (.read fd size)) :
    Effects c s (s.sysRead fs fd size).2 := by
  unfold sysRead
  split
  · exact .refl
  split
  · exact .refl
  rename_i i f found
  split
  · exact .refl
  rename_i node place
  dsimp only
  have given : Effects c s (s.give f.node (.bytes (fs.read node f.offset size).2)) :=
    .single (.give _ place (mayRead_of_file found (asked i f found)))
  split
  · exact given.tail (.file (f := f) _ (getFile_some found) rfl rfl)
  · exact given

theorem sysWrite_effects (data : List UInt8) (asked : Honest fs c s (.write fd data)) :
    Effects c s (s.sysWrite fs fd data).2 := by
  unfold sysWrite
  split
  · exact .refl
  split
  · exact .refl
  rename_i i f found
  split
  · exact .refl
  rename_i node place
  dsimp only
  have wrote : Effects c s (s.setNode f.node { node with
      size := (fs.write node f.offset data).2.1, data := (fs.write node f.offset data).2.2 }) :=
    .single (.edit _ _ place (mayWrite_of_file found (asked i f found)))
  split
  · exact wrote.tail (.file (f := f) _ (getFile_some found) rfl rfl)
  · exact wrote

theorem dupFrom_effects (start : Nat) : Effects c s (s.dupFrom fd start).2 := by
  unfold dupFrom
  split
  · exact .refl
  split
  · exact setFd_effects _ _ _
  · exact .refl

theorem fdctlDup2_effects (newfd : Nat) : Effects c s (s.fdctlDup2 fd newfd).2 := by
  unfold fdctlDup2
  split
  · exact .refl
  split
  · exact .refl
  split
  · exact .refl
  · exact setFd_effects _ _ _

/-- `F_SETFL` cannot reach the access mode. -/
theorem accmode_setFl (flags arg : Nat) :
    accmode ((flags - (flags &&& setflMask)) ||| (arg &&& setflMask)) = accmode flags := by
  have low : ∀ x : Nat, x &&& openAccmode = x % 4 := fun x => and_two_pow_sub_one_eq_mod x 2
  have masked : ∀ x : Nat, (x &&& setflMask) % 4 = 0 := by
    intro x
    rw [← low, Nat.and_assoc]
    simp [setflMask, openAccmode]
  have below : flags &&& setflMask ≤ flags := and_le_left
  have first := masked flags
  have second := masked arg
  unfold accmode
  rw [and_or_distrib_right, low, low, low, second, or_zero]
  omega

theorem sysFcntl_effects (cmd : FcntlCmd) : Effects c s (s.sysFcntl fd cmd).2 := by
  unfold sysFcntl
  split
  · exact .refl
  rename_i i f found
  cases cmd with
  | dupFd start =>
    dsimp only
    split
    · exact .refl
    · exact dupFrom_effects start
  | getFd | getFl => exact .refl
  | setFd arg => exact file_effects found rfl rfl
  | setFl arg => exact file_effects found rfl (accmode_setFl f.flags arg)

theorem readEntries_effects (fs : FileSystem δ) (data : δ)
    (place : ∀ t : Session δ, t.files = s.files →
    t.nodes = s.nodes → ∃ node, t.nodes[n]? = some node ∧ MayRead c t n node) :
    ∀ (room index : Nat) (t : Session δ), t.files = s.files → t.nodes = s.nodes →
      Effects c t (t.readEntries fs n data room index).2 ∧
      (t.readEntries fs n data room index).2.files = s.files := by
  intro room
  induction room with
  | zero => intro index t files _; exact ⟨.refl, files⟩
  | succ room ih =>
    intro index t files nodes
    simp only [readEntries]
    split
    · exact ⟨.refl, files⟩
    rename_i name _
    obtain ⟨node, found, allowed⟩ := place t files nodes
    obtain ⟨rest, last⟩ := ih (index + 1) (t.give n (.entry name)) files nodes
    exact ⟨.head (.give _ found allowed) rest, last⟩

theorem getdents_effects (count : Nat) (asked : Honest fs c s (.getdents fd count)) :
    Effects c s (s.getdents fs fd count).2 := by
  unfold getdents
  split
  · exact .refl
  rename_i i f found
  split
  · exact .refl
  rename_i node place
  split
  · exact .refl
  split
  · exact .refl
  split
  · exact .refl
  have open_ : ∀ t : Session δ, t.files = s.files → t.nodes = s.nodes →
      ∃ node, t.nodes[f.node]? = some node ∧ MayRead c t f.node node := by
    intro t files nodes
    refine ⟨node, nodes ▸ place, .inr ⟨f, ?_, rfl, asked i f found⟩⟩
    rw [files]
    exact mem_of_getElem? (getFile_some found)
  obtain ⟨listed, files⟩ := readEntries_effects fs node.data open_
    (count / direntSize) f.offset s rfl rfl
  refine listed.tail (.file (f := f) _ ?_ rfl rfl)
  rw [files]
  exact getFile_some found

theorem ftruncate_effects (length : Nat) (asked : Honest fs c s (.ftruncate fd length)) :
    Effects c s (s.ftruncate fs fd length).2 := by
  unfold ftruncate
  split
  · exact .refl
  rename_i n node found
  split
  · exact .refl
  · obtain ⟨_, i, f, file, rfl⟩ := getNode_some found
    exact truncateVfs_effects length fun x _ => mayWrite_of_file file (asked i f file)

theorem dir_allowed {dir : Nat} (found : s.getNode fd = some (dir, node))
    (passed : ¬ vfsCheckPerm c node (permWrite ||| permExec) = false) (x : Inode δ)
    (place : s.nodes[dir]? = some x) : vfsCheckPerm c x permWrite = true := by
  rw [(getNode_some found).1] at place
  cases place
  exact dirWx_write (Bool.eq_true_of_not_eq_false passed)

theorem openat_effects (name : Name) (flags : Nat) :
    Effects c s (s.openat fs c fd name flags).2 := by
  unfold openat
  refine onDir_effects fun dir node found => ?_
  split
  · exact .refl
  split
  · exact openNode_effects _ flags _ _ _
  split
  · exact .refl
  split
  · exact .refl
  have made := addNode_effects fs dir name (fs.create .file) (dir_allowed found ‹_›)
  split
  · rename_i after eq
    rw [eq] at made
    split
    · exact made.trans (openNode_effects _ flags _ _ _)
    · exact made
  · rename_i code after _ eq
    rw [eq] at made
    exact made

theorem makeAt_effects (name : Name) (x : Inode δ) :
    Effects c s (s.makeAt fs c fd name x).2 := by
  unfold makeAt
  refine onDir_effects fun dir node found => ?_
  split
  · exact .refl
  split
  · exact .refl
  split
  · exact .refl
  exact addNode_effects fs dir name x (dir_allowed found ‹_›)

theorem editAt_effects (name : Name) (names : List Name) (edit : δ → Option δ) :
    Effects c s (s.editAt fs c fd name names edit).2 := by
  unfold editAt
  refine onDir_effects fun dir node found => ?_
  split
  · exact .refl
  split
  · exact .refl
  split
  · exact .refl
  exact editDir_effects dir edit (dir_allowed found ‹_›)

theorem linkAt_effects (target name : Name) : Effects c s (s.linkAt fs c fd target name).2 := by
  unfold linkAt
  refine onDir_effects fun dir node found => ?_
  split
  · exact .refl
  split
  · exact .refl
  split
  · exact .refl
  split
  · exact .refl
  exact editDir_effects dir _ (dir_allowed found ‹_›)

theorem readlinkAt_effects (name : Name) (room : Nat)
    (readable : Honest fs c s (.readlink fd name room)) :
    Effects c s (s.readlinkAt fs fd name room).2 := by
  unfold readlinkAt
  refine onDir_effects fun _ _ _ => ?_
  split
  · exact .refl
  refine onEntry_effects fun dir x n node directory walked place => ?_
  split
  · exact .refl
  · exact .single (.give _ place (.inl (readable dir x n node directory walked place)))

theorem truncateAt_effects (name : Name) (length : Nat) :
    Effects c s (s.truncateAt fs c fd name length).2 := by
  unfold truncateAt
  refine onEntry_effects fun dir x n node _ _ place => ?_
  split
  · exact .refl
  split
  · exact .refl
  rename_i passed
  rw [Bool.not_eq_false] at passed
  refine truncateVfs_effects length fun y found => .inl ?_
  rw [place] at found
  cases found
  exact passed

theorem chmodAt_effects (name : Name) (mode : Nat) (noGain : Honest fs c s (.chmod fd name mode)) :
    Effects c s (s.chmodAt fs c fd name mode).2 := by
  unfold chmodAt
  refine onEntry_effects fun dir x n node directory walked place => ?_
  split
  · exact .refl
  have same := noGain dir x n node directory walked place
  unfold chmodVfs
  simp only [place]
  cases given : fs.chmod with
  | some op | none =>
    simp only [newMode, given] at same
    exact .single (.chmod _ place same)

theorem chownAt_effects (name : Name) (uid gid : Nat) (nonRoot : c.euid ≠ 0) :
    Effects c s (s.chownAt fs c fd name uid gid).2 := by
  unfold chownAt
  refine onDir_effects fun _ _ _ => ?_
  rw [if_pos nonRoot]

theorem mknodAt_effects (name : Name) (mode : Nat) (allowed : Honest fs c s (.mknod fd name mode)) :
    Effects c s (s.mknodAt fs fd name mode).2 := by
  unfold mknodAt
  refine onDir_effects fun dir node found => ?_
  split
  · exact .refl
  split
  · exact .refl
  have place := (getNode_some found).1
  have inside := (List.getElem?_eq_some_iff.mp place).1
  have made : ∀ x, Effects c s (s.addNode fs dir name x).2 := fun x =>
    addNode_effects fs dir name x (dir_allowed found (by simp [allowed dir node found]))
  unfold mknodVfs
  cases added : fs.add node.data name s.nodes.length with
  | none =>
    have refused : s.addNode fs dir name (fs.create .file) = (-1, s) := by
      unfold addNode
      simp [place, added]
    rw [refused]
    exact .refl
  | some data =>
    by_cases directory : node.type = .directory
    · have result : ∀ x, s.addNode fs dir name x =
          (0, { s with nodes := s.nodes.set dir { node with data := data } ++ [x] }) := by
        intro x
        unfold addNode
        simp [place, directory, added]
      have entry : ∀ x, (s.nodes.set dir { node with data := data } ++ [x])[dir]? =
          some { node with data := data } := by
        intro x
        rw [List.getElem?_append_left (by rw [List.length_set]; exact inside)]
        exact List.getElem?_set_self inside
      have last : ∀ x, (s.nodes.set dir { node with data := data } ++ [x])[s.nodes.length]? =
          some x := by
        intro x
        rw [List.getElem?_append_right (by rw [List.length_set]), List.length_set,
          Nat.sub_self]
        rfl
      have replaced : ∀ x y, (s.nodes.set dir { node with data := data } ++ [x]).set
          s.nodes.length y = s.nodes.set dir { node with data := data } ++ [y] := by
        intro x y
        rw [List.set_append_right _ _ (by rw [List.length_set]), List.length_set,
          Nat.sub_self]
        rfl
      rw [result]
      simp only [entry, Option.bind_some, fs.walk_add _ _ _ _ added, last, setNode, replaced]
      have whole := made { fs.create .file with
        type := if mode &&& 0xF000 = 0x2000 then .charDevice
          else if mode &&& 0xF000 = 0x6000 then .blockDevice else (fs.create .file).type,
        mode := mode &&& 0o777 }
      rw [result] at whole
      exact whole
    · have refused : s.addNode fs dir name (fs.create .file) = (-1, s) := by
        unfold addNode
        simp [place, directory]
      rw [refused]
      exact .refl

/-! ## Runs -/

theorem perform_effects (nonRoot : c.euid ≠ 0) {call : FileCall} (honest : Honest fs c s call) :
    Effects c s (s.perform fs c call).2 := by
  cases call with
  | openPath path flags => exact sysOpen_effects path flags
  | read fd size => exact sysRead_effects size honest
  | write fd data => exact sysWrite_effects data honest
  | close fd =>
    simp only [perform]
    split
    · exact setFd_effects _ _ _
    · exact .refl
  | dup fd => exact dupFrom_effects 0
  | dup2 fd newfd => exact fdctlDup2_effects newfd
  | fcntl fd cmd => exact sysFcntl_effects cmd
  | lseek fd offset =>
    simp only [perform, lseek]
    split
    · exact .refl
    · rename_i found
      exact file_effects found rfl rfl
  | ftruncate fd length => exact ftruncate_effects length honest
  | getdents fd count => exact getdents_effects count honest
  | openat fd name flags => exact openat_effects name flags
  | create fd name | mkdir fd name | symlink fd name target => exact makeAt_effects name _
  | unlink fd name | rmdir fd name => exact editAt_effects name _ _
  | rename fd old new => exact editAt_effects old _ _
  | link fd target name => exact linkAt_effects target name
  | readlink fd name room => exact readlinkAt_effects name room honest
  | chmod fd name mode => exact chmodAt_effects name mode honest
  | chown fd name uid gid => exact chownAt_effects name uid gid nonRoot
  | truncate fd name length => exact truncateAt_effects name length
  | mknod fd name mode => exact mknodAt_effects name mode honest

end Session

/-- A process that is not root and starts without a file on the node: when the node
refuses it reading, nothing of the node is ever copied out to it, and when the node
refuses it writing, size and contents stay as they are. -/
theorem denied_node_untouched (fs : FileSystem δ) {c : Cred} (nonRoot : c.euid ≠ 0)
    {start s : Session δ} {n : Nat} {node : Inode δ} (present : start.nodes[n]? = some node)
    (unopened : ∀ f ∈ start.files, f.node ≠ n) (silent : ∀ e ∈ start.returned, e.1 ≠ n)
    (reached : Reach (· = start)
      (restrict (Session.Honest fs c) fun s call t => (s.perform fs c call).2 = t) s) :
    (vfsCheckPerm c node permRead = false → ∀ e ∈ s.returned, e.1 ≠ n) ∧
    (vfsCheckPerm c node permWrite = false →
      ∃ now, s.nodes[n]? = some now ∧ now.size = node.size ∧ now.data = node.data) := by
  have guarded : Guarded c n node s := by
    refine invariant (Guarded c n node) ?_ ?_ reached
    · rintro t rfl
      refine ⟨⟨node, present, fun _ _ passes => passes, fun _ => ⟨rfl, rfl⟩⟩,
        fun _ => ⟨fun f member here => absurd here (unopened f member), silent⟩,
        fun _ f member here => absurd here (unopened f member)⟩
    · rintro t call u guarded ⟨honest, rfl⟩
      exact guarded.effects (Session.perform_effects nonRoot honest)
  obtain ⟨now, place, _, same⟩ := guarded.present
  exact ⟨fun denied => (guarded.unread denied).2, fun denied => ⟨now, place, same denied⟩⟩

end

/-! ## Two sessions on tmpfs -/

/-- A directory with one file of one byte, both owned by root. -/
def oneFile (mode : Nat) : Session TmpNode :=
  { nodes := [⟨.directory, 0, 0o755, 0, 0, ⟨[], [(['f'], 1)]⟩⟩, ⟨.file, 1, mode, 0, 0, ⟨[42], []⟩⟩]
    files := []
    fds := List.replicate maxFd none
    returned := [] }

def someUser : Cred := ⟨1000, 1000, false⟩

/-- A file that others may read is read and keeps its contents. -/
theorem denied_node_untouched_after_read :
    ∃ s now, ((oneFile 0o644).perform tmpfs someUser (.openPath ['f'] 0)).2.perform tmpfs someUser
        (.read 3 1) = (1, s) ∧ vfsCheckPerm someUser now permWrite = false ∧
      s.nodes[1]? = some now ∧ now.size = 1 ∧ now.data = ⟨[42], []⟩ := by
  have reached : Reach (· = oneFile 0o644) (restrict (Session.Honest tmpfs someUser)
      fun s call t => (s.perform tmpfs someUser call).2 = t) _ :=
    next (a := .read 3 1) (next (a := .openPath ['f'] 0) (start rfl) ⟨trivial, rfl⟩)
      ⟨fun i f found => by cases found; decide, rfl⟩
  obtain ⟨now, place, size, data⟩ := (denied_node_untouched tmpfs (c := someUser) (n := 1)
    (by decide) rfl (fun f member => absurd member (by simp [oneFile]))
    (fun e member => absurd member (by simp [oneFile])) reached).2 (by decide)
  cases place
  exact ⟨_, _, rfl, by decide, rfl, size, data⟩

/-- Access mode 3 opens a file that is closed to the process in both ways, and the
descriptor then reads and writes it. -/
theorem closed_file_read_and_written :
    ∃ s, Reach (· = oneFile 0o600)
        (fun s call t => (Session.perform tmpfs someUser s call).2 = t) s ∧
      (∀ node, (oneFile 0o600).nodes[1]? = some node →
        vfsCheckPerm someUser node permRead = false ∧
        vfsCheckPerm someUser node permWrite = false) ∧
      (1, Piece.bytes [42]) ∈ s.returned ∧
      (s.nodes[1]?).map (fun node => (node.size, node.data.bytes)) = some (2, [42, 7]) := by
  refine ⟨_, next (a := .write 3 [7]) (next (a := .read 3 1)
    (next (a := .openPath ['f'] 3) (start rfl) rfl) rfl) rfl, ?_, ?_, ?_⟩
  · intro node found
    cases found
    exact ⟨by decide, by decide⟩
  · exact mem_cons_self
  · decide +kernel

end CactKernel.Vfs
