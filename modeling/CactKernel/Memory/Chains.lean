import CactKernel.Memory.Kept

/-! # The page-table functions as chains

Each function of the page-table code is a chain of small changes within the pages
that it is called for. -/

set_option autoImplicit false

namespace CactKernel.Memory

open Lib Mem Function Nat Bool Or Steps

variable {sc : Scope} {w : World} {d : DirId} {v f i : Nat} {dir : Directory} {fl : Flags}

/-! ## Labels -/

theorem Label.within_plain : Label.Within {} sc :=
  ⟨nofun, inl rfl, nofun, nofun, nofun⟩

theorem Label.within_page (page : sc.pages v) : Label.Within { page := some v } sc := by
  refine ⟨?_, inl rfl, nofun, nofun, nofun⟩
  intro u same
  cases same
  exact page

theorem Label.within_closes (closes : sc.closes d) : Label.Within { closes := some d } sc := by
  refine ⟨nofun, inl rfl, nofun, ?_, nofun⟩
  intro d' same
  cases same
  exact closes

theorem Label.within_kind {k : Kind} {g : Option Nat} (page : sc.pages v)
    (kind : k = .plain ∨ sc.kinds k) (frame : ∀ f, g = some f → sc.frames f := by simp) :
    Label.Within { page := some v, kind := k, frame := g } sc := by
  refine ⟨?_, kind, nofun, nofun, frame⟩
  intro u same
  cases same
  exact page

variable {w' : World} {m m' : Mem}

theorem Steps.plain (micro : Micro {} w w') : Steps sc w w' :=
  single Label.within_plain micro

theorem Steps.page (page : sc.pages v) (micro : Micro { page := some v } w w') : Steps sc w w' :=
  single (Label.within_page page) micro

/-! ## More frames in hand -/

def World.holding (w : World) (more : Multiset Nat) : World := { w with hand := w.hand + more }

theorem Micro.holding {l : Label} (micro : Micro l w w') (more : Multiset Nat) :
    Micro l (w.holding more) (w'.holding more) := by
  have split : ∀ {f : Nat} {hand rest : Multiset Nat}, hand = f ::ₘ rest →
      hand + more = f ::ₘ (rest + more) := by
    intro f hand rest same
    rw [same, Multiset.cons_add]
  cases micro with
  | alloc run =>
    have step := Micro.alloc (w := w.holding more) run
    unfold World.holding at step ⊢
    rw [← Multiset.cons_add] at step
    exact step
  | starve run => exact .starve run
  | fill f bytes => exact .fill f bytes
  | bump f => exact .bump f
  | abandon inHand => exact .abandon (split inHand)
  | discard inHand => exact .discard (split inHand)
  | pin free inHand => exact .pin free (split inHand)
  | unpin pinned => exact .unpin pinned
  | openDir absent inHand => exact .openDir absent (split inHand)
  | closeDir here bare => exact .closeDir here bare
  | forget d => exact .forget d
  | reflag here same => exact .reflag here same
  | privatise user rw here shared low inHand =>
    exact .privatise user rw here shared low (split inHand)
  | fold here own bare => exact .fold here own bare
  | install own inHand holds => exact .install own (split inHand) holds
  | clear own inert => exact .clear own inert
  | release own holds inert => exact .release own holds inert
  | @share _ d v f old fl o own source elsewhere settled notPrivate holds writable =>
    refine Micro.share (w := w.holding more) (o := o) own ?_ elsewhere settled notPrivate holds
      writable
    cases o with
    | hand g => exact absurd rfl (settled g)
    | entry d v | table d i | root d | pin x => exact source
  | protect own before holds => exact .protect (w := w.holding more) own before holds
  | adopt own holds => exact .adopt own holds
  | borrow own holds => exact .borrow own holds
  | kernelClear v => exact .kernelClear v
  | kernelBorrow high simple => exact .kernelBorrow high simple
  | reshare d pages => exact .reshare (w := w.holding more) d pages

theorem Steps.holding (steps : Steps sc w w') (more : Multiset Nat) :
    Steps sc (w.holding more) (w'.holding more) := by
  induction steps with
  | refl => exact refl
  | tail _ last ih =>
    obtain ⟨l, within, micro⟩ := last
    exact ih.trans (single within (micro.holding more))

/-! ## Loops -/

section Loops

variable {body : Nat → Mem → Mem} {each : Nat → Mem → Bool × Mem} {n : Nat}

theorem Steps.loop (inv : Nat → Mem → Prop) (tidy : Tidy w.mem) (start : inv 0 w.mem)
    (round : ∀ i m, i < n → Tidy m → inv i m →
      Steps sc { w with mem := m } { w with mem := body i m } ∧ inv (i + 1) (body i m)) :
    Steps sc w { w with mem := countTo body n w.mem } ∧ inv n (countTo body n w.mem) := by
  refine countTo_invariant (fun i m => Steps sc w { w with mem := m } ∧ inv i m)
    ⟨refl, start⟩ ?_
  intro i m small before
  have next := round i m small (before.1.tidy tidy) before.2
  exact ⟨before.1.trans next.1, next.2⟩

theorem Steps.loopPlain (tidy : Tidy w.mem)
    (round : ∀ i m, i < n → Tidy m →
      Steps sc { w with mem := m } { w with mem := body i m }) :
    Steps sc w { w with mem := countTo body n w.mem } :=
  (loop (fun _ _ => True) tidy trivial fun i m small tidy' _ =>
    ⟨round i m small tidy', trivial⟩).1

theorem Steps.loopWhile (inv : Nat → Mem → Prop) (tidy : Tidy w.mem) (start : inv 0 w.mem)
    (round : ∀ i m, i < n → Tidy m → inv i m →
      Steps sc { w with mem := m } { w with mem := (each i m).2 } ∧
        ((each i m).1 = true → inv (i + 1) (each i m).2)) :
    Steps sc w { w with mem := (countWhile each n w.mem).2 } ∧
      ((countWhile each n w.mem).1 = true → inv n (countWhile each n w.mem).2) := by
  have kept : ∀ i m, i < n → (Steps sc w { w with mem := m } ∧ inv i m) →
      if (each i m).1 then Steps sc w { w with mem := (each i m).2 } ∧ inv (i + 1) (each i m).2
      else Steps sc w { w with mem := (each i m).2 } := by
    intro i m small before
    have next := round i m small (before.1.tidy tidy) before.2
    split
    · rename_i full
      exact ⟨before.1.trans next.1, next.2 full⟩
    · exact before.1.trans next.1
  have whole := countWhile_invariant (fun i m => Steps sc w { w with mem := m } ∧ inv i m)
    (fun _ m => Steps sc w { w with mem := m }) ⟨refl, start⟩ kept
  split at whole
  · exact ⟨whole.1, fun _ => whole.2⟩
  rename_i broken
  obtain ⟨_, _, holds⟩ := whole
  exact ⟨holds, fun full => absurd full broken⟩

theorem Steps.loopWhilePlain (tidy : Tidy w.mem)
    (round : ∀ i m, i < n → Tidy m →
      Steps sc { w with mem := m } { w with mem := (each i m).2 }) :
    Steps sc w { w with mem := (countWhile each n w.mem).2 } :=
  (loopWhile (fun _ _ => True) tidy trivial fun i m small tidy' _ =>
    ⟨round i m small tidy', fun _ => trivial⟩).1

end Loops

/-! ## Private tables -/

/-- What making a table private leaves as it was. -/
structure Prepared (m m' : Mem) : Prop where
  same : ∀ d v, m'.pteAt d v = m.pteAt d v
  own : ∀ d v e, m.ownPte d v = some e → m'.ownPte d v = some e
  kernel : m'.kernel = m.kernel
  root : m'.root = m.root
  page : m'.page = m.page
  refs : ∀ f, m.pmm.refs f = 1 → m'.pmm.refs f = 1

theorem Prepared.refl : Prepared m m :=
  ⟨fun _ _ => rfl, fun _ _ _ own => own, rfl, rfl, rfl, fun _ single => single⟩

theorem kalloc_refs {pm : Pmm} (single : pm.refs f = 1) : pm.kalloc.2.refs f = 1 := by
  unfold Pmm.kalloc
  split
  · rename_i g _
    change update pm.refs g 1 f = 1
    rw [update_apply]
    split
    · rfl
    · exact single
  · exact single

theorem Prepared.kalloc (m : Mem) : Prepared m { m with pmm := m.pmm.kalloc.2 } :=
  ⟨fun _ _ => rfl, fun _ _ _ own => own, rfl, rfl, rfl, fun _ single => kalloc_refs single⟩

theorem pteAt_congr (own : m'.ownPte d v = m.ownPte d v) (root : m'.root d = m.root d)
    (kernel : m'.kernel = m.kernel) : m'.pteAt d v = m.pteAt d v := by
  rw [pteAt_eq, pteAt_eq, own, root, kernel]

theorem Prepared.reflag {pde : Nat → Pde} (here : m.dirs d = some dir)
    (same : ∀ i, (pde i).table = (dir.pde i).table) : Prepared m (m.putDir d { dir with pde }) := by
  have own : ∀ d' v, (m.putDir d { dir with pde }).ownPte d' v = m.ownPte d' v := by
    intro d' v
    rw [ownPte_putDir]
    split
    · rename_i sameDir
      rw [Directory.ownPte_reflag same, sameDir]
      simp [ownPte, here]
    · rfl
  have roots : (m.putDir d { dir with pde }).root = m.root := by
    funext d'
    rw [root_putDir]
    split
    · rename_i sameDir
      simp [Mem.root, sameDir, here]
    · rfl
  exact ⟨fun d' v => pteAt_congr (own d' v) (congrFun roots d') rfl,
    fun d' v e before => (own d' v).trans before, rfl, roots, rfl, fun _ single => single⟩

theorem widen_eq (here : m.dirs d = some dir) (i : Nat) (user rw : Bool) :
    ∃ pde : Nat → Pde, (∀ j, (pde j).table = (dir.pde j).table) ∧
      m.widen d i user rw = m.putDir d { dir with pde } := by
  refine ⟨update dir.pde i ⟨(dir.pde i).user || user, (dir.pde i).rw || rw,
    (dir.pde i).table⟩, ?_, ?_⟩
  · intro j
    rw [update_apply]
    split
    · rename_i samePde
      rw [samePde]
    · rfl
  · simp only [widen, here, setPde_of_dir here, Directory.setPde]

theorem widen_prepared (m : Mem) (d : DirId) (i : Nat) (user rw : Bool) :
    Prepared m (m.widen d i user rw) := by
  cases here : m.dirs d with
  | none =>
    simp only [widen, here]
    exact Prepared.refl
  | some dir =>
    obtain ⟨pde, same, result⟩ := widen_eq here i user rw
    rw [result]
    exact Prepared.reflag here same

theorem widen_steps (sc : Scope) (w : World) (d : DirId) (i : Nat) (user rw : Bool) :
    Steps sc w { w with mem := w.mem.widen d i user rw } := by
  cases here : w.mem.dirs d with
  | none =>
    simp only [widen, here]
    exact refl
  | some dir =>
    obtain ⟨pde, same, result⟩ := widen_eq here i user rw
    rw [result]
    exact plain (Micro.reflag here same)

variable {user rw : Bool} {rest : Multiset Nat}

theorem Prepared.privatise {pt : Nat} (here : m.dirs d = some dir)
    (shared : (dir.pde i).table = .kernel) :
    Prepared m (m.setPde d i ⟨user, rw, .own pt fun j => m.kernel (1024 * i + j)⟩) := by
  have own : ∀ d' v,
      (m.setPde d i ⟨user, rw, .own pt fun j => m.kernel (1024 * i + j)⟩).ownPte d' v =
      if d' = d ∧ v / 1024 = i then some (m.kernel v) else m.ownPte d' v := by
    intro d' v
    rw [ownPte_setPde here]
    split
    · rename_i same
      rw [← same.2]
      simp only [div_add_mod]
    · rfl
  have before : ∀ d' v, d' = d ∧ v / 1024 = i → m.ownPte d' v = none := by
    rintro d' v ⟨rfl, rfl⟩
    exact ownPte_of_kernel here shared
  refine ⟨?_, ?_, ?_, funext fun _ => root_setPde here _ _, ?_, ?_⟩
  · intro d' v
    rw [pteAt_eq, pteAt_eq, root_setPde here, own]
    split
    · rename_i same
      have isOpen : (m.root d').isSome = true := by simp [Mem.root, same.1, here]
      rw [before d' v same]
      simp [isOpen]
    · rw [setPde_of_dir here]
      rfl
  · intro d' v e entry
    rw [own, if_neg]
    · exact entry
    · intro same
      rw [before d' v same] at entry
      cases entry
  · rw [setPde_of_dir here]
    rfl
  · rw [setPde_of_dir here]
    rfl
  · intro f single
    rw [setPde_of_dir here]
    exact single

theorem Prepared.trans {m'' : Mem} (first : Prepared m m') (second : Prepared m' m'') :
    Prepared m m'' := by
  refine ⟨?_, ?_, second.kernel.trans first.kernel, second.root.trans first.root,
    second.page.trans first.page, ?_⟩
  · intro d v
    rw [second.same, first.same]
  · intro d v e own
    exact second.own d v e (first.own d v e own)
  · intro f single
    exact second.refs f (first.refs f single)

theorem kalloc_dirs {r : Option Nat} (run : m.kalloc = (r, m')) : m'.dirs = m.dirs := by
  rw [(kalloc_eq run).2]

theorem takeTable_steps {pt : Nat} (sc : Scope) (user rw : Bool) (run : w.mem.kalloc = (some pt, m))
    (here : m.dirs d = some dir) (shared : (dir.pde i).table = .kernel)
    (low : i < pdKernelEntries) :
    Steps sc w
      { w with mem := m.setPde d i ⟨user, rw, .own pt fun j => m.kernel (1024 * i + j)⟩ } := by
  have taken : Steps sc w { w with mem := m, hand := pt ::ₘ w.hand } := plain (Micro.alloc run)
  exact taken.trans (plain (Micro.privatise user rw here shared low rfl))

theorem privatise_prepared (here : m.dirs d = some dir) (shared : (dir.pde i).table = .kernel)
    (user rw : Bool) : Prepared m (m.privatise d i user rw).2 := by
  unfold privatise
  cases run : m.kalloc with
  | mk r m' =>
    have hereAfter : m'.dirs d = some dir := by rw [kalloc_dirs run, here]
    have allocated : Prepared m m' := (kalloc_eq run).2 ▸ Prepared.kalloc m
    cases r with
    | none =>
      simp only [here]
      exact allocated
    | some pt =>
      simp only [here]
      exact allocated.trans (Prepared.privatise hereAfter shared)

theorem privatise_steps (sc : Scope) (user rw : Bool) (here : w.mem.dirs d = some dir)
    (shared : (dir.pde i).table = .kernel) (low : i < pdKernelEntries) :
    Steps sc w { w with mem := (w.mem.privatise d i user rw).2 } ∧
      ((w.mem.privatise d i user rw).1 = true →
        ∀ v, v / 1024 = i → ∃ e, (w.mem.privatise d i user rw).2.ownPte d v = some e) := by
  unfold privatise
  cases run : w.mem.kalloc with
  | mk r m =>
    have hereAfter : m.dirs d = some dir := by rw [kalloc_dirs run, here]
    cases r with
    | none =>
      simp only [here]
      exact ⟨plain (Micro.starve run), nofun⟩
    | some pt =>
      simp only [here]
      refine ⟨takeTable_steps sc _ _ run hereAfter shared low, ?_⟩
      intro _ v table
      rw [ownPte_setPde hereAfter, if_pos ⟨rfl, table⟩]
      exact ⟨_, rfl⟩

/-- There is no directory, or the table is one of the last, which stay the kernel's. -/
theorem ensurePrivate_mmio (run : m.ensurePrivate d i user rw = (.kernelMmio, m')) :
    m' = m ∧ (m.dirs d = none ∨ pdKernelEntries ≤ i) := by
  unfold ensurePrivate at run
  split at run
  · rename_i absent
    cases run
    exact ⟨rfl, .inl absent⟩
  split at run
  · rename_i high
    cases run
    exact ⟨rfl, .inr high⟩
  split at run
  · cases run
  split at run
  · cases run
  · cases run

theorem ensurePrivate_steps (sc : Scope) (w : World) (d : DirId) (i : Nat) (user rw : Bool) :
    Steps sc w { w with mem := (w.mem.ensurePrivate d i user rw).2 } ∧
      Prepared w.mem (w.mem.ensurePrivate d i user rw).2 ∧
      ((w.mem.ensurePrivate d i user rw).1 = .ok → i < pdKernelEntries ∧
        ∀ v, v / 1024 = i → ∃ e, (w.mem.ensurePrivate d i user rw).2.ownPte d v = some e) := by
  unfold ensurePrivate
  split
  · exact ⟨refl, Prepared.refl, nofun⟩
  rename_i dir here
  split
  · exact ⟨refl, Prepared.refl, nofun⟩
  rename_i low
  split
  · rename_i f entries table
    refine ⟨refl, Prepared.refl, fun _ => ⟨Nat.lt_of_not_le low, ?_⟩⟩
    intro v same
    exact ⟨_, ownPte_of_table here (same.symm ▸ table)⟩
  rename_i table
  have made := privatise_steps sc user rw here table (Nat.lt_of_not_le low)
  have prepared := privatise_prepared here table user rw
  split
  · rename_i m run
    rw [run] at made prepared
    exact ⟨made.1, prepared, fun _ => ⟨Nat.lt_of_not_le low, made.2 rfl⟩⟩
  · rename_i m run
    rw [run] at made prepared
    exact ⟨made.1, prepared, nofun⟩

/-! ## Mapping a frame -/

theorem setPte_kernel (here : m.dirs d = some dir) (table : (dir.pde (v / 1024)).table = .kernel)
    (e : Pte) : m.setPte d v e = m.putKernel v e := by
  simp only [setPte, here, table, putKernel]

theorem setPte_absent (absent : m.dirs d = none) (e : Pte) : m.setPte d v e = m := by
  simp only [setPte, absent]

theorem Tidy.low_of_own {e : Pte} (tidy : Tidy m) (own : m.ownPte d v = some e) :
    v < totalPages := by
  obtain ⟨dir, f, entries, here, table, -⟩ := ownPte_eq_some own
  have low := tidy.low d (v / 1024) f (by simp [ownTable, here, Directory.ownTable, table])
  unfold pdKernelEntries at low
  unfold totalPages
  omega

theorem ensured_own (sc : Scope) (tidy : Tidy w.mem)
    (run : w.mem.ensurePrivate d (v / 1024) user rw = (.ok, m)) :
    Steps sc w { w with mem := m } ∧ Prepared w.mem m ∧ Tidy m ∧ v < totalPages ∧
      ∃ e, m.ownPte d v = some e := by
  have made := ensurePrivate_steps sc w d (v / 1024) user rw
  rw [run] at made
  have tidy' : Tidy m := made.1.tidy tidy
  obtain ⟨e, own⟩ := (made.2.2 rfl).2 v rfl
  exact ⟨made.1, made.2.1, tidy', tidy'.low_of_own own, e, own⟩

theorem ensured_not (sc : Scope) {r : EnsureResult}
    (run : w.mem.ensurePrivate d (v / 1024) user rw = (r, m)) :
    Steps sc w { w with mem := m } ∧ Prepared w.mem m := by
  have made := ensurePrivate_steps sc w d (v / 1024) user rw
  rw [run] at made
  exact ⟨made.1, made.2.1⟩

theorem Tidy.kernelTable (tidy : Tidy m) (here : m.dirs d = some dir) (high : totalPages ≤ v) :
    (dir.pde (v / 1024)).table = .kernel := by
  cases table : (dir.pde (v / 1024)).table with
  | kernel => rfl
  | own f entries =>
    exact absurd (tidy.low_of_own (ownPte_of_table here table)) (not_lt.mpr high)

/-- An entry about to be replaced: the frame of a copy-on-write entry is released first. -/
theorem replacePte_prepare {old : Pte} (tidy : Tidy w.mem) (own : w.mem.ownPte d v = some old)
    (page : sc.pages v) (f : Nat) (fl : Flags) :
    ∃ m now, Steps sc w { w with mem := m } ∧ m.ownPte d v = some now ∧
      w.mem.replacePte d v f fl = m.setPte d v ⟨f, fl⟩ ∧ (old.frame = f → now = old) := by
  unfold replacePte
  rw [pteAt_of_own own]
  by_cases released : (old.flags.present && old.flags.cow && decide (old.frame ≠ f)) = true
  · simp only [released, if_true]
    simp only [and_eq_true, decide_eq_true_eq] at released
    have holds : old.holds = true := (tidy.entries d v old own).1 released.1.2
    have ownAfter : (w.mem.freePage old.frame).ownPte d v = some old := own
    refine ⟨(w.mem.freePage old.frame).setPte d v .null, .null,
      Steps.page page (Micro.release own holds Pte.inert_null), ?_, ?_, ?_⟩
    · rw [ownPte_setPte ownAfter, if_pos ⟨rfl, rfl⟩]
    · rw [setPte_setPte ownAfter]
    · intro same
      exact absurd same released.2
  · simp only [released]
    exact ⟨w.mem, old, refl, own, rfl, fun _ => rfl⟩

/-- `vmm_map` below the PCI hole either fails, or comes down to writing one private entry. -/
theorem vmmMap_prepare (tidy : Tidy w.mem) (d : DirId) (low : v < totalPages) (page : sc.pages v)
    (f : Nat) (fl : Flags) :
    Steps sc w { w with mem := w.mem.vmmMap d v f fl } ∨
      ∃ m now, Steps sc w { w with mem := m } ∧ m.ownPte d v = some now ∧
        w.mem.vmmMap d v f fl = m.setPte d v ⟨f, mapFlags v f fl⟩ ∧
        (∀ old, w.mem.ownPte d v = some old → old.frame = f → now = old) := by
  have finish : ∀ (m : Mem), Steps sc w { w with mem := m } → Prepared w.mem m →
      (∃ e, m.ownPte d v = some e) →
      ∃ m' now, Steps sc w { w with mem := m' } ∧ m'.ownPte d v = some now ∧
        m.replacePte d v f (mapFlags v f fl) = m'.setPte d v ⟨f, mapFlags v f fl⟩ ∧
        (∀ old, w.mem.ownPte d v = some old → old.frame = f → now = old) := by
    rintro m steps prepared ⟨e, own⟩
    obtain ⟨m', now, steps', own', result, same⟩ := replacePte_prepare
      (w := { w with mem := m }) (steps.tidy tidy) own page f (mapFlags v f fl)
    refine ⟨m', now, steps.trans steps', own', result, ?_⟩
    intro old before sameFrame
    have kept := prepared.own d v old before
    rw [own] at kept
    cases kept
    exact same sameFrame
  unfold vmmMap
  split
  · exact inl refl
  rename_i dir here
  split
  · rename_i g entries table
    have prepared := widen_prepared w.mem d (v / 1024) (mapFlags v f fl).user (mapFlags v f fl).rw
    exact inr (finish _ (widen_steps sc w d _ _ _) prepared
      ⟨_, prepared.own d v _ (ownPte_of_table here table)⟩)
  rename_i table
  rw [if_neg (not_le.mpr low)]
  have small : v / 1024 < pdKernelEntries := by
    unfold pdKernelEntries
    unfold totalPages at low
    omega
  have made := privatise_steps sc (mapFlags v f fl).user (mapFlags v f fl).rw here table small
  have prepared := privatise_prepared here table (mapFlags v f fl).user (mapFlags v f fl).rw
  split
  · rename_i m run
    rw [run] at made prepared
    exact inr (finish m made.1 prepared (made.2 rfl v rfl))
  · rename_i m run
    rw [run] at made
    exact inl made.1

theorem holds_mapFlags (user : fl.user = true) : (Pte.mk f (mapFlags v f fl)).holds = true := by
  simp [Pte.holds, mapFlags, user]

theorem vmmMap_fresh (tidy : Tidy w.mem) (d : DirId) (low : v < totalPages) (page : sc.pages v)
    (inHand : w.hand = f ::ₘ rest) (fl : Flags) (user : fl.user = true) :
    Steps sc w { w with mem := w.mem.vmmMap d v f fl } ∨
      (Steps sc w { w with mem := w.mem.vmmMap d v f fl, hand := rest } ∧
        (w.mem.vmmMap d v f fl).ownPte d v = some ⟨f, mapFlags v f fl⟩) := by
  rcases vmmMap_prepare tidy d low page f fl with failed | ⟨m, now, steps, own, result, -⟩
  · exact inl failed
  refine inr ⟨?_, ?_⟩
  · rw [result]
    exact steps.trans (Steps.page page (Micro.install (w := { w with mem := m }) own inHand
      (holds_mapFlags user)))
  · rw [result, ownPte_setPte own, if_pos ⟨rfl, rfl⟩]

theorem vmmMap_high (tidy : Tidy w.mem) (d : DirId) (high : totalPages ≤ v) (page : sc.pages v)
    (borrow : sc.kinds .borrow) (f : Nat) (simple : fl.cow = false ∧ fl.demand = false) :
    Steps sc w { w with mem := w.mem.vmmMap d v f fl } := by
  unfold vmmMap
  split
  · exact refl
  rename_i dir here
  have table := tidy.kernelTable here high
  rw [table]
  simp only [if_pos high]
  have widened := widen_steps sc w d (v / 1024) (mapFlags v f fl).user (mapFlags v f fl).rw
  refine widened.trans ?_
  have here' : (w.mem.widen d (v / 1024) (mapFlags v f fl).user (mapFlags v f fl).rw).dirs d =
      some (dir.setPde (v / 1024) ⟨(dir.pde (v / 1024)).user || (mapFlags v f fl).user,
        (dir.pde (v / 1024)).rw || (mapFlags v f fl).rw, (dir.pde (v / 1024)).table⟩) := by
    simp [widen, here, setPde_of_dir here, putDir]
  have table' := (widened.tidy tidy).kernelTable here' high
  have entry := pteAt_of_shared here' (ownPte_of_kernel here' table')
  have noCow : ((w.mem.widen d (v / 1024) (mapFlags v f fl).user
      (mapFlags v f fl).rw).pteAt d v).flags.cow = false := by
    rw [entry, (widen_prepared w.mem d (v / 1024) _ _).kernel]
    exact (tidy.kernel v).1
  simp only [replacePte, noCow, Bool.and_false, Bool.false_and, Bool.false_eq_true, if_false]
  rw [setPte_kernel here' table']
  refine single (Label.within_kind (g := none) page (inr borrow)) ?_
  exact Micro.kernelBorrow high simple

theorem userFlags_simple (write : Bool) :
    (userFlags write).cow = false ∧ (userFlags write).demand = false := ⟨rfl, rfl⟩

theorem vmmMap_place (tidy : Tidy w.mem) (d : DirId) (page : sc.pages v)
    (high : totalPages ≤ v → sc.kinds .borrow) (inHand : w.hand = f ::ₘ rest) (write : Bool) :
    Steps sc w { w with mem := w.mem.vmmMap d v f (userFlags write), hand := rest } := by
  have lost : Steps sc w { w with mem := w.mem.vmmMap d v f (userFlags write) } →
      Steps sc w { w with mem := w.mem.vmmMap d v f (userFlags write), hand := rest } :=
    fun steps => steps.trans (plain (Micro.abandon inHand))
  by_cases low : v < totalPages
  · rcases vmmMap_fresh tidy d low page inHand (userFlags write) rfl with failed | placed
    · exact lost failed
    · exact placed.1
  · have isHigh := Nat.le_of_not_lt low
    exact lost (vmmMap_high tidy d isHigh page (high isHigh) f (userFlags_simple write))

theorem mapFresh_steps (tidy : Tidy w.mem) (run : w.mem.kalloc = (some f, m)) (d : DirId)
    (page : sc.pages v) (high : totalPages ≤ v → sc.kinds .borrow) (bytes : Nat → UInt8)
    (write : Bool) :
    Steps sc w { w with mem := (m.fill f bytes).vmmMap d v f (userFlags write) } := by
  have taken : Steps sc w { w with mem := m, hand := f ::ₘ w.hand } := plain (Micro.alloc run)
  have filled := taken.trans (plain (Micro.fill f bytes))
  exact filled.trans (vmmMap_place (filled.tidy tidy) d page high rfl write)

/-! ## Page faults -/

theorem freePage_setPte (d : DirId) (v : Nat) (e : Pte) (f : Nat) :
    (m.setPte d v e).freePage f = (m.freePage f).setPte d v e := by
  cases here : m.dirs d with
  | none => rw [setPte_absent here, setPte_absent (m := m.freePage f) here]
  | some dir =>
    have here' : (m.freePage f).dirs d = some dir := here
    cases table : (dir.pde (v / 1024)).table with
    | kernel =>
      rw [setPte_kernel here table, setPte_kernel here' table]
      rfl
    | own g entries =>
      simp only [setPte, here, here', table, setPde]
      rfl

theorem mapZeroPage_steps (page : sc.pages v) :
    Steps sc w { w with mem := (mapZeroPage d v true w.mem).2 } := by
  unfold mapZeroPage ensurePrivatePt
  have made := ensurePrivate_steps sc w d (v / 1024) true false
  split
  · rename_i m run
    rw [run] at made
    obtain ⟨e, own⟩ := (made.2.2 rfl).2 v rfl
    exact made.1.trans (Steps.page page (Micro.clear own ⟨rfl, nofun, fun _ => rfl⟩))
  · rename_i m notOk run
    rw [run] at made
    exact made.1

theorem vmmMapZero_steps {n : Nat} (tidy : Tidy w.mem) (pages : ∀ i < n, sc.pages (v + i)) :
    Steps sc w { w with mem := (w.mem.vmmMapZero d v n true).2 } := by
  unfold vmmMapZero
  split
  · exact refl
  split
  · exact refl
  · exact loopWhilePlain tidy fun i m small _ =>
      mapZeroPage_steps (w := { w with mem := m }) (pages i small)

theorem Tidy.own_of_flag (tidy : Tidy m)
    (flag : (m.pteAt d v).flags.cow = true ∨ (m.pteAt d v).flags.demand = true) :
    m.ownPte d v = some (m.pteAt d v) := by
  rcases m.pteAt_cases d v with own | null | kernel
  · exact own
  · simp [null, Pte.null] at flag
  · simp [kernel, (tidy.kernel v).1, (tidy.kernel v).2.1] at flag

theorem copyFrame_steps {old : Pte} (own : w.mem.ownPte d v = some old) (holds : old.holds = true)
    (user : fl.user = true) (present : fl.present = true) (page : sc.pages v) :
    Steps sc w { w with mem := (w.mem.copyFrame d v old fl).2 } := by
  unfold copyFrame
  split
  · rename_i m run
    exact Steps.plain (Micro.starve run)
  rename_i f m run
  obtain ⟨-, rfl⟩ := kalloc_eq run
  have ownFilled : (({ w.mem with pmm := w.mem.pmm.kalloc.2 } : Mem).fill f
      (w.mem.page old.frame)).ownPte d v = some old := own
  have taken : Steps sc w _ := Steps.plain (Micro.alloc run)
  have filled := taken.trans (Steps.plain (Micro.fill f (w.mem.page old.frame)))
  -- the old frame is released and the entry then takes the new one
  have released := filled.trans (Steps.page page (Micro.release ownFilled holds Pte.inert_null))
  have ownFreed : ((({ w.mem with pmm := w.mem.pmm.kalloc.2 } : Mem).fill f
      (w.mem.page old.frame)).freePage old.frame).ownPte d v = some old := own
  have installed := released.trans (Steps.page page (Micro.install
    (by rw [ownPte_setPte ownFreed, if_pos ⟨rfl, rfl⟩]) rfl
    (show (Pte.mk f fl).holds = true by simp [Pte.holds, user, present])))
  rw [setPte_setPte ownFreed] at installed
  rw [freePage_setPte]
  exact installed

theorem vmmHandleCow_steps (tidy : Tidy w.mem) (page : sc.pages v) :
    Steps sc w { w with mem := (w.mem.vmmHandleCow d v).2 } := by
  unfold vmmHandleCow
  by_cases cow : (w.mem.pteAt d v).flags.cow = true
  · have own := tidy.own_of_flag (inl cow)
    have holds := (tidy.entries d v _ own).1 cow
    have user := Pte.holds_user holds
    simp only [cow, Bool.not_true, Bool.false_eq_true, if_false]
    split
    · rename_i single
      refine Steps.single ?_ (Micro.protect own holds (by simp [Pte.holds, user]))
      refine Label.within_kind (g := none) page (inl (if_pos ?_))
      intro _
      refine inr (inl ?_)
      unfold Pmm.pageRefGet at single
      split at single
      · cases single
      · exact single
    · exact copyFrame_steps own holds user rfl page
  · simp only [cow, Bool.not_false, if_true]
    exact Steps.refl

theorem growStack_steps (tidy : Tidy w.mem) (page : sc.pages v) (low : v < totalPages) :
    Steps sc w { w with mem := w.mem.growStack d v } := by
  unfold growStack
  split
  · rename_i m run
    exact plain (Micro.starve run)
  · rename_i f m run
    exact mapFresh_steps tidy run d page (fun high => absurd low (not_lt.mpr high)) _ true

theorem demandPage_steps {pte : Pte} (own : w.mem.ownPte d v = some pte)
    (user : pte.flags.user = true) (page : sc.pages v) :
    Steps sc w { w with mem := w.mem.demandPage d v pte } := by
  unfold demandPage
  split
  · rename_i m run
    exact plain (Micro.starve run)
  rename_i f m run
  obtain ⟨-, rfl⟩ := kalloc_eq run
  have taken : Steps sc w _ := plain (Micro.alloc run)
  have holds : ∀ fl : Flags, fl.present = true → fl.user = pte.flags.user →
      (Pte.mk f fl).holds = true := by
    intro fl present same
    simp [Pte.holds, present, same, user]
  split
  · exact (taken.trans (plain (Micro.fill f fun _ => 0))).trans
      (Steps.page page (Micro.install own rfl (holds _ rfl rfl)))
  · exact taken.trans (Steps.page page (Micro.install own rfl (holds _ rfl rfl)))

theorem inStackWindow_low (window : inStackWindow v = true) : v < totalPages := by
  unfold inStackWindow at window
  simp only [and_eq_true, decide_eq_true_eq] at window
  exact window.2

theorem pageFault_steps (tidy : Tidy w.mem) (page : sc.pages v) (write : Bool) :
    Steps sc w { w with mem := w.mem.pageFault d v write } := by
  have grow : ∀ m, Steps sc w { w with mem := m } → Steps sc w { w with
      mem := if inStackWindow v && !(w.mem.pteAt d v).flags.user then m.growStack d v else m } := by
    intro m steps
    split
    · rename_i window
      have low := inStackWindow_low (and_eq_true_iff.mp window).1
      exact steps.trans (growStack_steps (w := { w with mem := m }) (steps.tidy tidy) page low)
    · exact steps
  unfold pageFault
  by_cases present : (w.mem.pteAt d v).flags.present = true
  · rw [if_pos present]
    by_cases writes : write = true
    · rw [if_pos writes]
      by_cases cow : (w.mem.pteAt d v).flags.cow = true
      · have handled : Steps sc w { w with mem := (w.mem.vmmHandleCow d v).2 } :=
          vmmHandleCow_steps tidy page
        rw [if_pos cow]
        cases run : w.mem.vmmHandleCow d v with
        | mk done m =>
          rw [run] at handled
          cases done with
          | true => exact handled
          | false => exact grow m handled
      · rw [if_neg cow]
        exact grow w.mem refl
    · rw [if_neg writes]
      exact grow w.mem refl
  · rw [if_neg present]
    by_cases demand : (w.mem.pteAt d v).flags.demand = true
    · rw [if_pos demand]
      have own := tidy.own_of_flag (inr demand)
      exact demandPage_steps own ((tidy.entries d v _ own).2 demand) page
    rw [if_neg demand]
    by_cases cow : (w.mem.pteAt d v).flags.cow = true
    · -- a copy-on-write entry is present
      have own := tidy.own_of_flag (inl cow)
      exact absurd (Pte.holds_present ((tidy.entries d v _ own).1 cow)) present
    rw [if_neg cow]
    by_cases window : inStackWindow v = true
    · rw [if_pos window]
      exact growStack_steps tidy page (inStackWindow_low window)
    · rw [if_neg window]
      exact refl

end CactKernel.Memory
