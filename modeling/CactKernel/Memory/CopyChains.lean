import CactKernel.Memory.Chains

/-! # Unmapping, protecting and copying as chains

`do_munmap`, `do_mprotect`, the two copies that `task_fork` makes and the release
of an address space. -/

set_option autoImplicit false

namespace CactKernel.Memory

open Lib Mem Option Nat Or Steps Micro

variable {sc : Scope} {w : World} {d src dst : DirId} {v : Nat}

/-! ## Unmapping -/

/-- The directory holds no frame at the page. -/
def Mem.Bare (m : Mem) (d : DirId) (v : Nat) : Prop := ∀ e, m.ownPte d v = some e → e.holds = false

variable {e : Pte} {m : Mem} {u i : Nat}

/-- An entry that holds a frame lies in a private table. -/
theorem Tidy.own_of_holds (tidy : Tidy m) (low : v < totalPages)
    (holds : (m.pteAt d v).holds = true) : m.ownPte d v = some (m.pteAt d v) := by
  rcases m.pteAt_cases d v with own | null | kernel
  · exact own
  · rw [null] at holds
    cases holds
  · rw [kernel, (tidy.inert_kernel low).1] at holds
    cases holds

theorem Tidy.inert_pteAt (tidy : Tidy m) (low : v < totalPages)
    (holdsNot : (m.pteAt d v).holds = false) : (m.pteAt d v).Inert := by
  rcases m.pteAt_cases d v with own | null | kernel
  · exact ⟨holdsNot, tidy.entries d v _ own⟩
  · rw [null]
    exact Pte.inert_null
  · rw [kernel]
    exact tidy.inert_kernel low

variable {m' : Mem}

theorem Prepared.bare (prepared : Prepared m m') (tidy : Tidy m) (tidy' : Tidy m')
    (bare : m.Bare d v) : m'.Bare d v := by
  intro e own
  have low := tidy'.low_of_own own
  rw [← pteAt_of_own own, prepared.same]
  by_contra holds
  have before := tidy.own_of_holds low (Bool.eq_true_of_not_eq_false holds)
  exact holds (bare _ before)

theorem clearPte_steps (tidy : Tidy w.mem) (low : v < totalPages) (page : sc.pages v) :
    Steps sc w { w with mem := w.mem.clearPte d v } := by
  unfold clearPte
  dsimp only
  by_cases holds : (w.mem.pteAt d v).holds = true
  · have own := tidy.own_of_holds low holds
    rw [if_pos holds]
    exact Steps.page page (release own holds Pte.inert_null)
  rw [if_neg holds]
  cases here : w.mem.dirs d with
  | none =>
    rw [setPte_absent here]
    exact refl
  | some dir =>
    cases table : (dir.pde (v / 1024)).table with
    | own g entries =>
      exact Steps.page page (clear (ownPte_of_table here table) Pte.inert_null)
    | kernel =>
      rw [setPte_kernel here table]
      exact Steps.page page (kernelClear v)

theorem Bare.setPte_null (bare : m.Bare d u ∨ u = v) : (m.setPte d v .null).Bare d u := by
  intro e entry
  cases own : m.ownPte d v with
  | some old =>
    rw [ownPte_setPte own] at entry
    split at entry
    · cases entry
      rfl
    rename_i other
    rcases bare with bare | same
    · exact bare e entry
    · exact absurd ⟨rfl, same⟩ other
  | none =>
    -- the write goes into the kernel's tables, or nowhere
    have unchanged : (m.setPte d v .null).ownPte d u = m.ownPte d u := by
      cases here : m.dirs d with
      | none => rw [setPte_absent here]
      | some dir =>
        rw [setPte_kernel here (table_of_shared here own)]
        rfl
    rw [unchanged] at entry
    rcases bare with bare | same
    · exact bare e entry
    · rw [same, own] at entry
      cases entry

theorem Bare.clearPte (bare : m.Bare d u ∨ u = v) : (m.clearPte d v).Bare d u := by
  unfold Mem.clearPte
  dsimp only
  split
  · exact Bare.setPte_null (m := m.freePage (m.pteAt d v).frame) bare
  · exact Bare.setPte_null bare

theorem unmapPage_steps (tidy : Tidy w.mem) (page : sc.pages v) :
    Steps sc w { w with mem := (unmapPage d v w.mem).2 } ∧
      ((unmapPage d v w.mem).1 = true → (unmapPage d v w.mem).2.Bare d v ∧
        ∀ u, w.mem.Bare d u → (unmapPage d v w.mem).2.Bare d u) := by
  unfold unmapPage ensurePdePrivate
  split
  · rename_i m run
    obtain ⟨steps, prepared, tidy', low, -⟩ := ensured_own sc tidy run
    refine ⟨steps.trans (clearPte_steps tidy' low page), fun _ => ?_⟩
    refine ⟨Bare.clearPte (inr rfl), fun u bare => Bare.clearPte (inl ?_)⟩
    exact prepared.bare tidy tidy' bare
  · rename_i m run
    obtain ⟨steps, prepared⟩ := ensured_not sc run
    refine ⟨steps, fun _ => ⟨?_, fun u bare => prepared.bare tidy (steps.tidy tidy) bare⟩⟩
    intro e own
    obtain ⟨rfl, absent | high⟩ := ensurePrivate_mmio run
    · simp [ownPte, absent] at own
    · have low := tidy.low_of_own own
      unfold pdKernelEntries at high
      unfold totalPages at low
      omega
  · rename_i m run
    exact ⟨(ensured_not sc run).1, by simp⟩

theorem unmapPages_steps {a n : Nat} (tidy : Tidy w.mem)
    (pages : ∀ i < n, sc.pages (wrapPage (a + i))) :
    Steps sc w { w with mem := (w.mem.unmapPages d a n).2 } ∧
      ((w.mem.unmapPages d a n).1 = true →
        ∀ i < n, (w.mem.unmapPages d a n).2.Bare d (wrapPage (a + i))) := by
  refine loopWhile (fun i m => ∀ j < i, m.Bare d (wrapPage (a + j))) tidy nofun ?_
  intro i m small tidy' before
  have unmapped := unmapPage_steps (w := { w with mem := m }) tidy' (pages i small) (d := d)
  refine ⟨unmapped.1, fun done j near => ?_⟩
  rcases Nat.lt_succ_iff_lt_or_eq.mp near with earlier | same
  · exact (unmapped.2 done).2 _ (before j earlier)
  · rw [same]
    exact (unmapped.2 done).1

/-! ## Protecting -/

/-- What a change of rights at the page may need to be allowed. -/
def Protects (sc : Scope) (shared : DirId → Nat → Prop) (m : Mem) (d : DirId) (write : Bool)
    (v : Nat) : Prop :=
  ((m.pteAt d v).flags.present = true → (m.pteAt d v).flags.user = false → sc.kinds .adopt) ∧
    ((m.pteAt d v).holds = true → write = true → (m.pteAt d v).flags.rw = false →
      m.pmm.refs (m.pteAt d v).frame ≠ 1 → ¬ shared d v → sc.kinds .promote)

theorem protectPage_steps {write : Bool} (tidy : Tidy w.mem)
    (allowed : ∀ u, u < totalPages → sc.pages u → Protects sc w.shared w.mem d write u)
    (page : sc.pages v) :
    Steps sc w { w with mem := (protectPage d v write w.mem).2 } ∧
      ∀ u, u < totalPages → sc.pages u →
        Protects sc w.shared (protectPage d v write w.mem).2 d write u := by
  unfold protectPage ensurePdePrivate
  have keeps : ∀ m, Prepared w.mem m →
      ∀ u, u < totalPages → sc.pages u → Protects sc w.shared m d write u := by
    intro m prepared u low inside
    have before := allowed u low inside
    unfold Protects at before ⊢
    rw [prepared.same]
    refine ⟨before.1, fun holds writes readOnly several alone => ?_⟩
    exact before.2 holds writes readOnly (fun single => several (prepared.refs _ single)) alone
  split
  · rename_i m run
    obtain ⟨steps, prepared, tidy', low, e, own⟩ := ensured_own sc tidy run
    have here := keeps m prepared v low page
    unfold Protects at here
    rw [pteAt_of_own own] at here ⊢
    dsimp only
    by_cases present : e.flags.present = true
    · rw [if_pos present]
      have holdsAfter : (Pte.mk e.frame (userFlags write)).holds = true := rfl
      constructor
      · refine steps.trans ?_
        cases user : e.flags.user with
        | true =>
          have holds : e.holds = true := by simp [Pte.holds, present, user]
          refine single ?_ (protect own holds holdsAfter)
          refine Label.within_kind (g := none) page ?_
          by_cases plain : (userFlags write).rw = true → e.flags.rw = true ∨
              m.pmm.refs e.frame = 1 ∨ w.shared d v
          · exact inl (if_pos plain)
          refine inr ?_
          rw [if_neg plain]
          rw [Classical.not_imp, not_or, not_or] at plain
          exact here.2 holds plain.1 (by simpa using plain.2.1) plain.2.2.1 plain.2.2.2
        | false =>
          refine single ?_ (adopt own holdsAfter)
          exact Label.within_kind (g := none) page (inr (here.1 present user))
      · intro u lowU inside
        have before := keeps m prepared u lowU inside
        unfold Protects at before ⊢
        rw [pteAt_setPte own, pmm_setPte]
        split
        · refine ⟨fun _ supervisor => absurd supervisor (by simp [userFlags]), ?_⟩
          intro _ writes readOnly
          exact absurd readOnly (by simp [userFlags, writes])
        · exact before
    · rw [if_neg present]
      exact ⟨steps, keeps m prepared⟩
  · rename_i m run
    obtain ⟨steps, prepared⟩ := ensured_not sc run
    exact ⟨steps, keeps m prepared⟩
  · rename_i m run
    obtain ⟨steps, prepared⟩ := ensured_not sc run
    exact ⟨steps, keeps m prepared⟩

/-! ## Copying entries -/

theorem pteAt_pageRefInc (f : Nat) : (m.pageRefInc f).pteAt d v = m.pteAt d v := rfl

/-- The entry that both sides of a copy-on-write share get. -/
def Pte.toCow (e : Pte) : Pte := ⟨e.frame, { e.flags with rw := false, cow := true }⟩

theorem shareCow_eq (m : Mem) (src dst : DirId) (v : Nat) (pte : Pte) :
    m.shareCow src dst v pte =
      ((m.setPte src v pte.toCow).setPte dst v pte.toCow).pageRefInc pte.frame := rfl

variable {old pte : Pte} {ref : Nat → Pte}

theorem ownPte_toCow (apart : src ≠ dst) (own : m.ownPte src v = some pte)
    (ownChild : m.ownPte dst v = some old) :
    (m.setPte src v pte.toCow).ownPte dst v = some old := by
  rw [ownPte_setPte own, if_neg (fun same => apart same.1.symm)]
  exact ownChild

theorem shareCow_steps (apart : src ≠ dst) (own : w.mem.ownPte src v = some pte)
    (ownChild : w.mem.ownPte dst v = some old) (holds : pte.holds = true) (page : sc.pages v) :
    Steps sc w { w with mem := w.mem.shareCow src dst v pte } := by
  have holdsCow : pte.toCow.holds = true := holds
  have ownAfter : (w.mem.setPte src v pte.toCow).ownPte src v = some pte.toCow := by
    rw [ownPte_setPte own, if_pos ⟨rfl, rfl⟩]
  have ownChildAfter := ownPte_toCow apart own ownChild
  have readOnly : Steps sc w { w with mem := w.mem.setPte src v pte.toCow } := by
    refine Steps.single ?_ (protect own holds holdsCow)
    exact Label.within_kind (g := none) page (inl (if_pos nofun))
  refine readOnly.trans (Steps.page page ?_)
  refine share (o := .entry src v) ownChildAfter ?_ ?_ nofun ?_ holdsCow nofun
  · simp only [World.held, ownAfter, bind_some, holdsCow, if_true]
    rfl
  · intro same
    cases same
    exact apart rfl
  · rintro ⟨d', v', e, same, entry, writable, -⟩
    cases same
    rw [ownAfter] at entry
    cases entry
    exact absurd writable (by simp [Pte.toCow])

theorem cloneShared_steps (tidy : Tidy w.mem) (apart : src ≠ dst) (page : sc.pages v)
    (sharedSrc : w.shared src v) (sharedDst : w.shared dst v) :
    Steps sc w { w with mem := w.mem.cloneShared src dst v } ∧
      ∀ u, (w.mem.cloneShared src dst v).pteAt src u = w.mem.pteAt src u := by
  unfold cloneShared ensurePdePrivate
  dsimp only
  split
  · exact ⟨Steps.refl, fun _ => rfl⟩
  split
  · rename_i m run
    obtain ⟨steps, prepared, tidy', low, old, own⟩ := ensured_own sc tidy run
    have unchanged : ∀ u, (m.setPte dst v (w.mem.pteAt src v)).pteAt src u =
        w.mem.pteAt src u := by
      intro u
      rw [pteAt_setPte own, if_neg (fun same => apart same.1), prepared.same]
    cases holds : (w.mem.pteAt src v).holds with
    | true =>
      rw [if_pos (Pte.holds_present holds)]
      refine ⟨steps.trans (Steps.page page ?_), unchanged⟩
      have ownSrc := tidy'.own_of_holds low (d := src) (by rw [prepared.same]; exact holds)
      rw [prepared.same] at ownSrc
      refine share (o := .entry src v) own ?_ ?_ nofun ?_ holds (fun _ => sharedDst)
      · simp only [World.held, ownSrc, bind_some, holds, if_true]
        rfl
      · intro same
        cases same
        exact apart rfl
      · rintro ⟨d', v', e, same, -, -, alone⟩
        cases same
        exact alone sharedSrc
    | false =>
      have inert := tidy.inert_pteAt low holds
      have cleared := steps.trans (Steps.page page (clear own inert))
      split
      · exact ⟨cleared.trans (Steps.plain (bump _)), unchanged⟩
      · exact ⟨cleared, unchanged⟩
  · rename_i m notOk run
    obtain ⟨steps, prepared⟩ := ensured_not sc run
    exact ⟨steps, fun u => prepared.same src u⟩

/-- A present page belongs to the process. -/
def Mem.Mine (m : Mem) (d : DirId) (v : Nat) : Prop :=
  (m.pteAt d v).flags.present = true → (m.pteAt d v).flags.user = true

theorem Mine.setPte_other (apart : src ≠ dst) (own : m.ownPte dst v = some old)
    (mine : m.Mine src u) : (m.setPte dst v e).Mine src u := by
  unfold Mem.Mine
  rw [pteAt_setPte own, if_neg (fun same => apart same.1)]
  exact mine

theorem Mine.shareCow (apart : src ≠ dst) (own : m.ownPte src v = some pte)
    (ownChild : m.ownPte dst v = some old) (holds : pte.holds = true) (mine : m.Mine src u) :
    (m.shareCow src dst v pte).Mine src u := by
  have ownChildAfter := ownPte_toCow apart own ownChild
  unfold Mem.Mine
  rw [shareCow_eq, pteAt_pageRefInc, pteAt_setPte ownChildAfter, if_neg (fun same => apart same.1),
    pteAt_setPte own]
  split
  · intro _
    exact Pte.holds_user holds
  · exact mine

theorem Prepared.mine (prepared : Prepared m m') (mine : m.Mine d u) : m'.Mine d u := by
  unfold Mem.Mine
  rw [prepared.same]
  exact mine

theorem clonePrivate_steps (tidy : Tidy w.mem) (apart : src ≠ dst) (page : sc.pages v)
    (mine : w.mem.Mine src v) :
    Steps sc w { w with mem := w.mem.clonePrivate src dst v } ∧
      ∀ u, w.mem.Mine src u → (w.mem.clonePrivate src dst v).Mine src u := by
  unfold clonePrivate ensurePdePrivate
  split
  · rename_i m run
    obtain ⟨steps, prepared, tidy', low, old, own⟩ := ensured_own sc tidy run
    by_cases present : (w.mem.pteAt src v).flags.present = true
    · have holds : (w.mem.pteAt src v).holds = true := by
        simp [Pte.holds, present, mine present]
      simp only [present, Bool.not_true, Bool.false_eq_true, if_false]
      split
      · rename_i m' run'
        obtain ⟨steps', prepared', tidy'', -, e, ownSrc⟩ :=
          ensured_own sc (w := { w with mem := m }) tidy' run'
        have sameSrc : w.mem.pteAt src v = e := by
          rw [← prepared.same, ← prepared'.same, pteAt_of_own ownSrc]
        rw [sameSrc] at holds ⊢
        have ownDst := prepared'.own dst v old own
        refine ⟨(steps.trans steps').trans
          (shareCow_steps (w := { w with mem := m' }) apart ownSrc ownDst holds page), ?_⟩
        intro u mineU
        exact Mine.shareCow apart ownSrc ownDst holds (prepared'.mine (prepared.mine mineU))
      · rename_i m' notOk run'
        obtain ⟨steps', prepared'⟩ := ensured_not sc (w := { w with mem := m }) run'
        exact ⟨steps.trans steps', fun u mineU => prepared'.mine (prepared.mine mineU)⟩
    · simp only [present, Bool.not_false, if_true]
      have holdsNot : (w.mem.pteAt src v).holds = false := by simp [Pte.holds, present]
      refine ⟨steps.trans (Steps.page page (clear own (tidy.inert_pteAt low holdsNot))), ?_⟩
      exact fun u mineU => Mine.setPte_other apart own (prepared.mine mineU)
  · rename_i m notOk run
    obtain ⟨steps, prepared⟩ := ensured_not sc run
    exact ⟨steps, fun u mineU => prepared.mine mineU⟩

/-! ## vmm_fork_address_space -/

/-- The directories have the same private tables in both memories. -/
structure SameTables (m m' : Mem) : Prop where
  tables : ∀ d i, m'.ownTable d i = m.ownTable d i
  roots : ∀ d, m'.root d = m.root d

theorem SameTables.setPte (own : m.ownPte d v = some old) (e : Pte) :
    SameTables m (m.setPte d v e) :=
  ⟨fun _ _ => ownTable_setPte own, fun _ => root_setPte own⟩

theorem SameTables.trans {m'' : Mem} (first : SameTables m m') (second : SameTables m' m'') :
    SameTables m m'' :=
  ⟨fun d i => (second.tables d i).trans (first.tables d i),
    fun d => (second.roots d).trans (first.roots d)⟩

theorem own_of_table {f : Nat} (table : m.ownTable d (v / 1024) = some f) :
    ∃ e, m.ownPte d v = some e := by
  obtain ⟨dir, here, own⟩ := bind_eq_some_iff.mp table
  unfold Directory.ownTable at own
  split at own
  · cases own
  · rename_i g entries isOwn
    exact ⟨_, ownPte_of_table here isOwn⟩

theorem SameTables.shareCow (apart : src ≠ dst) (own : m.ownPte src v = some pte)
    (ownChild : m.ownPte dst v = some old) : SameTables m (m.shareCow src dst v pte) := by
  have ownChildAfter := ownPte_toCow apart own ownChild
  have both := (SameTables.setPte own pte.toCow).trans (SameTables.setPte ownChildAfter pte.toCow)
  exact ⟨both.tables, both.roots⟩

/-- The pages outside the scope have the entries `ref` everywhere, none of which is a user's. -/
structure Aside (sc : Scope) (ref : Nat → Pte) (m : Mem) : Prop where
  spared : Spared ref (fun v => ¬ sc.pages v) m
  supervisor : ∀ v < totalPages, (ref v).holds = false

theorem Aside.steps {w' : World} (aside : Aside sc ref w.mem) (steps : Steps sc w w') :
    Aside sc ref w'.mem := by
  refine ⟨?_, aside.supervisor⟩
  refine steps.invariant (fun x => Spared ref (fun v => ¬ sc.pages v) x.mem) aside.spared ?_
  intro l a b within micro spared
  refine micro.spared ?_ spared
  intro v same outside
  exact outside (within.page v same)

theorem Aside.page_of_holds (aside : Aside sc ref m) (tidy : Tidy m) (own : m.ownPte d v = some e)
    (holds : e.holds = true) : sc.pages v := by
  by_contra outside
  rw [aside.spared.entries d v e outside own, aside.supervisor v (tidy.low_of_own own)] at holds
  cases holds

theorem forkEntry_steps (tidy : Tidy w.mem) (apart : src ≠ dst) (aside : Aside sc ref w.mem)
    (own : w.mem.ownPte src v = some pte) (ownChild : w.mem.ownPte dst v = some old) :
    Steps sc w { w with mem := w.mem.forkEntry src dst v } ∧
      SameTables w.mem (w.mem.forkEntry src dst v) ∧
      ∀ u, w.mem.Mine src u → (w.mem.forkEntry src dst v).Mine src u := by
  unfold forkEntry
  rw [pteAt_of_own own]
  by_cases holds : pte.holds = true
  · have page := aside.page_of_holds tidy own holds
    simp only [holds, Bool.not_true, Bool.false_eq_true, if_false]
    have shared := shareCow_steps apart own ownChild holds page
    split
    · split
      · rename_i f m run
        obtain ⟨-, rfl⟩ := kalloc_eq run
        have taken : Steps sc w _ := plain (alloc run)
        have filled := taken.trans (plain (fill f (w.mem.page pte.frame)))
        have holdsChild : ∀ fl : Flags, fl.present = pte.flags.present → fl.user = pte.flags.user →
            (Pte.mk f fl).holds = true := by
          intro fl present user
          simp only [Pte.holds, present, user]
          exact holds
        have tables :=
          SameTables.setPte (m := ({ w.mem with pmm := w.mem.pmm.kalloc.2 } : Mem).fill f
          (w.mem.page pte.frame)) ownChild ⟨f, { pte.flags with cow := false, rw := true }⟩
        exact ⟨filled.trans (Steps.page page (install ownChild rfl (holdsChild _ rfl rfl))),
          ⟨tables.tables, tables.roots⟩, fun u mine => Mine.setPte_other apart (m := Mem.fill _ _ _)
            ownChild mine⟩
      · rename_i m run
        obtain ⟨-, rfl⟩ := kalloc_eq run
        have starved : Steps sc w _ := plain (starve run)
        have tables := SameTables.shareCow (m := { w.mem with pmm := w.mem.pmm.kalloc.2 }) apart own
          ownChild
        exact
          ⟨starved.trans (shareCow_steps (w := { w with mem := _ }) apart own ownChild holds page),
          ⟨tables.tables, tables.roots⟩, fun u mine => Mine.shareCow apart
            (m := { w.mem with pmm := w.mem.pmm.kalloc.2 }) own ownChild holds mine⟩
    · exact ⟨shared, SameTables.shareCow apart own ownChild,
        fun u mine => Mine.shareCow apart own ownChild holds mine⟩
  · simp only [holds, Bool.not_false, if_true]
    refine ⟨?_, SameTables.setPte ownChild pte, fun u mine => Mine.setPte_other apart ownChild mine⟩
    by_cases page : sc.pages v
    · have inert : pte.Inert := ⟨Bool.eq_false_of_not_eq_true holds, tidy.entries src v pte own⟩
      exact Steps.page page (clear ownChild inert)
    -- the child's table starts with the same entry
    have same : old = pte := by
      rw [aside.spared.entries dst v old page ownChild, aside.spared.entries src v pte page own]
    rw [same] at ownChild
    rw [setPte_self ownChild]
    exact refl

/-- The child's tables from `i` on are still the kernel's. -/
def Untouched (m : Mem) (dst : DirId) (i : Nat) : Prop :=
  ∃ dir, m.dirs dst = some dir ∧ ∀ k, i ≤ k → (dir.pde k).table = .kernel

theorem ownTable_none {dir : Directory} (here : m.dirs d = some dir) :
    m.ownTable d i = none ↔ (dir.pde i).table = .kernel := by
  simp only [ownTable, here, bind_some, Directory.ownTable]
  split
  · rename_i table
    simp [table]
  · rename_i f entries table
    simp [table]

theorem Untouched.of_tables (untouched : Untouched m dst i) (roots : m'.root dst = m.root dst)
    (tables : ∀ k, i ≤ k → m'.ownTable dst k = m.ownTable dst k) : Untouched m' dst i := by
  obtain ⟨dir, here, bare⟩ := untouched
  cases here' : m'.dirs dst with
  | none => simp [root, here, here'] at roots
  | some dir' =>
    refine ⟨dir', here', fun k later => ?_⟩
    rw [← ownTable_none here', tables k later, ownTable_none here]
    exact bare k later

theorem Untouched.succ (untouched : Untouched m dst i) : Untouched m dst (i + 1) := by
  obtain ⟨dir, here, bare⟩ := untouched
  exact ⟨dir, here, fun k later => bare k (le_of_succ_le later)⟩

/-- What the copy of an address space keeps on the way. -/
structure Copying (sc : Scope) (ref : Nat → Pte) (src : DirId) (start m : Mem) : Prop where
  aside : Aside sc ref m
  mine : ∀ u, start.Mine src u → m.Mine src u

theorem forkEntries_steps {f g : Nat} (tidy : Tidy w.mem) (apart : src ≠ dst)
    (aside : Aside sc ref w.mem) (own : w.mem.ownTable src i = some f)
    (ownChild : w.mem.ownTable dst i = some g) :
    Steps sc w
        { w with mem := countTo (fun j m => m.forkEntry src dst (1024 * i + j)) 1024 w.mem } ∧
      SameTables w.mem (countTo (fun j m => m.forkEntry src dst (1024 * i + j)) 1024 w.mem) ∧
      Copying sc ref src w.mem
        (countTo (fun j m => m.forkEntry src dst (1024 * i + j)) 1024 w.mem) := by
  refine loop (fun _ m => SameTables w.mem m ∧ Copying sc ref src w.mem m) tidy
    ⟨⟨fun _ _ => rfl, fun _ => rfl⟩, aside, fun _ => id⟩ ?_
  intro j m small tidy' before
  have table : (1024 * i + j) / 1024 = i := by omega
  obtain ⟨pte, ownPte⟩ := own_of_table (m := m) (d := src) (v := 1024 * i + j)
    (by rw [table, before.1.tables]; exact own)
  obtain ⟨old, ownChildPte⟩ := own_of_table (m := m) (d := dst) (v := 1024 * i + j)
    (by rw [table, before.1.tables]; exact ownChild)
  have entry := forkEntry_steps (w := { w with mem := m }) tidy' apart before.2.aside ownPte
    ownChildPte
  exact ⟨entry.1, before.1.trans entry.2.1,
    Aside.steps (w := { w with mem := m }) before.2.aside entry.1,
    fun u mine => entry.2.2 u (before.2.mine u mine)⟩

theorem forkTable_steps (tidy : Tidy w.mem) (apart : src ≠ dst) (aside : Aside sc ref w.mem)
    (small : i < pdKernelEntries) (untouched : Untouched w.mem dst i) :
    Steps sc w { w with mem := w.mem.forkTable src dst i } ∧
      Untouched (w.mem.forkTable src dst i) dst (i + 1) ∧
      ∀ u, w.mem.Mine src u → (w.mem.forkTable src dst i).Mine src u := by
  unfold forkTable
  split
  · exact ⟨refl, untouched.succ, fun _ => id⟩
  rename_i dir here
  split
  · exact ⟨refl, untouched.succ, fun _ => id⟩
  obtain ⟨child, hereChild, bare⟩ := untouched
  split
  · rename_i table
    have same : ∀ k, (Function.update child.pde i (dir.pde i) k).table = (child.pde k).table := by
      intro k
      rw [Function.update_apply]
      split
      · rename_i sameTable
        rw [sameTable, table, bare i le_rfl]
      · rfl
    rw [setPde_of_dir hereChild]
    refine ⟨plain (reflag hereChild same), ?_,
      fun u mine => (Prepared.reflag hereChild same).mine mine⟩
    refine ⟨child.setPde i (dir.pde i), by simp [putDir], fun k later => ?_⟩
    exact (same k).trans (bare k (le_of_succ_le later))
  · rename_i f entries table
    split
    · rename_i m run
      obtain ⟨-, rfl⟩ := kalloc_eq run
      exact ⟨plain (starve run), ⟨child, hereChild,
        fun k later => bare k (le_of_succ_le later)⟩, fun _ => id⟩
    rename_i pt m run
    have hereAfter : m.dirs dst = some child := by rw [kalloc_dirs run, hereChild]
    have allocated : Prepared w.mem m := (kalloc_eq run).2 ▸ Prepared.kalloc w.mem
    have linked := takeTable_steps sc (dir.pde i).user (dir.pde i).rw run hereAfter
      (bare i le_rfl) small
    have ownSrc : m.ownTable src i = some f := by
      simp [ownTable, kalloc_dirs run, here, Directory.ownTable, table]
    have copied := forkEntries_steps (linked.tidy tidy) apart (aside.steps linked)
      ((ownTable_setPde hereAfter i _).trans
        ((if_neg (fun same => apart same.1)).trans ownSrc))
      ((ownTable_setPde hereAfter i _).trans (if_pos ⟨rfl, rfl⟩))
    refine ⟨linked.trans copied.1, ?_, ?_⟩
    · have before : Untouched m dst (i + 1) :=
        ⟨child, hereAfter, fun k later => bare k (le_of_succ_le later)⟩
      refine before.of_tables ?_ ?_
      · exact (copied.2.1.roots dst).trans (root_setPde hereAfter _ _)
      · intro k later
        have different : ¬ (dst = dst ∧ k = i) := fun same => ne_of_gt later same.2
        exact (copied.2.1.tables dst k).trans
          ((ownTable_setPde hereAfter i _).trans (if_neg different))
    · intro u mine
      exact copied.2.2.mine u
        ((Prepared.privatise hereAfter (bare i le_rfl)).mine (allocated.mine mine))

theorem vmmForkAddressSpace_steps (tidy : Tidy w.mem) (apart : src ≠ dst)
    (aside : Aside sc ref w.mem) (untouched : Untouched w.mem dst 0) :
    Steps sc w { w with mem := w.mem.vmmForkAddressSpace src dst } ∧
      ∀ u, w.mem.Mine src u → (w.mem.vmmForkAddressSpace src dst).Mine src u := by
  have round : ∀ i m, i < pdKernelEntries → Tidy m →
      (Untouched m dst i ∧ Copying sc ref src w.mem m) →
      Steps sc { w with mem := m } { w with mem := m.forkTable src dst i } ∧
        Untouched (m.forkTable src dst i) dst (i + 1) ∧
        Copying sc ref src w.mem (m.forkTable src dst i) := by
    intro i m small tidy' before
    have table :=
      forkTable_steps (w := { w with mem := m }) tidy' apart before.2.aside small before.1
    exact ⟨table.1, table.2.1, Aside.steps (w := { w with mem := m }) before.2.aside table.1,
      fun u mine => table.2.2 u (before.2.mine u mine)⟩
  have whole := loop (fun i m => Untouched m dst i ∧ Copying sc ref src w.mem m) tidy
    ⟨untouched, aside, fun _ => id⟩ round
  exact ⟨whole.1, whole.2.2.mine⟩

end CactKernel.Memory
