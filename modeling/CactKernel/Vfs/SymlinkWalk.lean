import CactKernel.Vfs.Mounts

/-! # Following symbolic links

The walk of a path with the depth counter that all its nested walks share. The target of a
link is walked by a nested call, with both buffers of the calls around it still on the kernel
stack: `frames` says how many nested walks the stack has room for. What a path leads to when
nothing is limited is the relation `Leads`, which walks the target in front of the rest. -/

set_option autoImplicit false

namespace CactKernel.Mounts

open List

/-- `overrun` is not an error of the source: the stack ends inside the walk. -/
inductive WalkError
  | none
  | eLoop
  | eNameTooLong
  | overrun
deriving DecidableEq

structure Walked where
  node : Option Node
  depth : Nat
  err : WalkError
deriving DecidableEq

variable (tree : Tree) (t : Tables)

/-- `_walk_one_follow`; `nested` walks the target of a link, as `vfs_readlink_node` reads it. -/
def walkOneFollow (nested : Nat → Node → List Text → Walked) (depth : Nat) (dir : Node)
    (seg : Text) : Walked :=
  match walkOne tree t dir seg with
  | some (.link target) =>
    if depth ≥ vfsSymlinkMaxDepth then ⟨none, depth, .eLoop⟩
    else
      match target with
      | [] => ⟨none, depth + 1, .none⟩
      | c :: _ => nested (depth + 1) (if c = '/' then .top else dir) (segments target)
  | node => ⟨node, depth, .none⟩

/-- The loop of `_walk_path_follow`. -/
def walkLoop (one : Nat → Node → Text → Walked) : Nat → Node → List Text → Walked
  | depth, cur, [] => ⟨some cur, depth, .none⟩
  | depth, cur, seg :: rest =>
    if seg.length > 127 then ⟨none, depth, .eNameTooLong⟩
    else if seg = "..".toList then walkLoop one depth cur rest
    else
      match one depth cur seg with
      | ⟨some node, depth, .none⟩ => walkLoop one depth node rest
      | stopped => ⟨none, stopped.depth, stopped.err⟩

/-- `_walk_path_follow` on a stack with room for `frames` walks. -/
def walkNested : Nat → Nat → Node → List Text → Walked
  | 0 => fun depth _ _ => ⟨none, depth, .overrun⟩
  | frames + 1 => walkLoop (walkOneFollow tree t (walkNested frames))

/-- What the first segment asks for. -/
inductive Move
  | stop (links : Nat) (err : WalkError)
  | go (next : Node)
  | follow (base : Node) (target : List Text)

def move (cur : Node) (seg : Text) : Move :=
  if seg.length > 127 then .stop 0 .eNameTooLong
  else if seg = "..".toList then .go cur
  else
    match walkOne tree t cur seg with
    | none => .stop 0 .none
    | some (.link []) => .stop 1 .none
    | some (.link (c :: target)) =>
      .follow (if c = '/' then .top else cur) (segments (c :: target))
    | some node => .go node

/-- Where the segments lead from a node, and over how many links. -/
inductive Leads : Node → List Text → Nat → Option Node → WalkError → Prop
  | done {cur : Node} : Leads cur [] 0 (some cur) .none
  | stop {cur : Node} {seg : Text} {rest : List Text} {n : Nat} {err : WalkError}
      (first : move tree t cur seg = .stop n err) : Leads cur (seg :: rest) n none err
  | go {cur next : Node} {seg : Text} {rest : List Text} {n : Nat} {node : Option Node}
      {err : WalkError} (first : move tree t cur seg = .go next)
      (later : Leads next rest n node err) : Leads cur (seg :: rest) n node err
  | follow {cur base : Node} {seg : Text} {target rest : List Text} {n : Nat}
      {node : Option Node} {err : WalkError} (first : move tree t cur seg = .follow base target)
      (later : Leads base (target ++ rest) n node err) : Leads cur (seg :: rest) (n + 1) node err

variable {tree t} {cur mid : Node} {seg : Text} {segs a b rest : List Text} {n m : Nat}
  {node node' : Option Node} {err err' : WalkError}

theorem move_stop (first : move tree t cur seg = .stop n err) :
    (err = .none ∨ err = .eNameTooLong) ∧ n ≤ 1 := by
  unfold move at first
  repeat' split at first
  all_goals cases first
  all_goals simp

theorem Leads.err_cases (leads : Leads tree t cur segs n node err) :
    err = .none ∨ err = .eNameTooLong ∧ node = none := by
  induction leads with
  | done => exact .inl rfl
  | stop first => exact (move_stop first).1.imp_right fun long => ⟨long, rfl⟩
  | go _ _ ih | follow _ _ ih => exact ih

theorem Leads.err_none (leads : Leads tree t cur segs n (some mid) err) : err = .none := by
  rcases leads.err_cases with none | ⟨-, absent⟩
  · exact none
  · cases absent

theorem Leads.unique (leads : Leads tree t cur segs n node err)
    (other : Leads tree t cur segs m node' err') : m = n ∧ node' = node ∧ err' = err := by
  induction leads generalizing m with
  | done =>
    cases other
    exact ⟨rfl, rfl, rfl⟩
  | stop first =>
    cases other with
    | stop again =>
      cases first.symm.trans again
      exact ⟨rfl, rfl, rfl⟩
    | go again _ | follow again _ => cases first.symm.trans again
  | go first _ ih =>
    cases other with
    | go again later =>
      cases first.symm.trans again
      exact ih later
    | stop again | follow again _ => cases first.symm.trans again
  | follow first _ ih =>
    cases other with
    | follow again later =>
      cases first.symm.trans again
      obtain ⟨same, rest⟩ := ih later
      exact ⟨congrArg (· + 1) same, rest⟩
    | stop again | go again _ => cases first.symm.trans again

theorem Leads.append (leads : Leads tree t cur a n (some mid) .none)
    (later : Leads tree t mid b m node err) : Leads tree t cur (a ++ b) (n + m) node err := by
  generalize reached : some mid = r, none : WalkError.none = e at leads
  induction leads with
  | done =>
    cases reached
    rw [Nat.zero_add]
    exact later
  | stop _ => cases reached
  | go first _ ih => exact .go first (ih reached none)
  | @follow _ _ _ target rest _ _ _ first _ ih =>
    rw [cons_append, Nat.add_right_comm]
    refine .follow first ?_
    rw [← append_assoc]
    exact ih reached none

theorem Leads.append_stop (leads : Leads tree t cur a n none err) (b : List Text) :
    Leads tree t cur (a ++ b) n none err := by
  generalize stopped : (none : Option Node) = r at leads
  induction leads with
  | done => cases stopped
  | stop first => exact .stop first
  | go first _ ih => exact .go first (ih stopped)
  | follow first _ ih =>
    rw [cons_append]
    refine .follow first ?_
    rw [← append_assoc]
    exact ih stopped

/-- A walk over two lists stops in the first, or goes on in the second where the first leads. -/
theorem Leads.split (leads : Leads tree t cur (a ++ b) n node err) :
    (node = none ∧ Leads tree t cur a n none err) ∨
      ∃ mid k l, n = k + l ∧ Leads tree t cur a k (some mid) .none ∧
        Leads tree t mid b l node err := by
  generalize whole : a ++ b = segs at leads
  induction leads generalizing a with
  | done =>
    obtain ⟨rfl, rfl⟩ := append_eq_nil_iff.mp whole
    exact .inr ⟨_, 0, 0, rfl, .done, .done⟩
  | stop first =>
    cases a with
    | nil =>
      rw [nil_append] at whole
      subst whole
      exact .inr ⟨_, 0, _, (Nat.zero_add _).symm, .done, .stop first⟩
    | cons s a =>
      cases whole
      exact .inl ⟨rfl, .stop first⟩
  | go first later ih =>
    cases a with
    | nil =>
      rw [nil_append] at whole
      subst whole
      exact .inr ⟨_, 0, _, (Nat.zero_add _).symm, .done, .go first later⟩
    | cons s a =>
      cases whole
      rcases ih rfl with ⟨none, stopped⟩ | ⟨mid, k, l, sum, front, back⟩
      · exact .inl ⟨none, .go first stopped⟩
      · exact .inr ⟨mid, k, l, sum, .go first front, back⟩
  | @follow _ base _ target rest _ _ _ first later ih =>
    cases a with
    | nil =>
      rw [nil_append] at whole
      subst whole
      exact .inr ⟨_, 0, _, (Nat.zero_add _).symm, .done, .follow first later⟩
    | cons s a =>
      cases whole
      rcases @ih (target ++ a) (append_assoc ..) with
        ⟨none, stopped⟩ | ⟨mid, k, l, sum, front, back⟩
      · exact .inl ⟨none, .follow first stopped⟩
      · refine .inr ⟨mid, k + 1, l, ?_, .follow first front, back⟩
        rw [sum, Nat.add_right_comm]

/-! ## The walk of the code -/

/-- A round of the loop. -/
theorem walkLoop_cons (nested : Nat → Node → List Text → Walked) (d : Nat) (cur : Node) (seg : Text)
    (rest : List Text) :
    walkLoop (walkOneFollow tree t nested) d cur (seg :: rest) =
      match move tree t cur seg with
      | .stop links err =>
        if links = 1 ∧ d ≥ vfsSymlinkMaxDepth then ⟨none, d, .eLoop⟩ else ⟨none, d + links, err⟩
      | .go next => walkLoop (walkOneFollow tree t nested) d next rest
      | .follow base target =>
        if d ≥ vfsSymlinkMaxDepth then ⟨none, d, .eLoop⟩
        else
          match nested (d + 1) base target with
          | ⟨some node, depth, .none⟩ => walkLoop (walkOneFollow tree t nested) depth node rest
          | stopped => ⟨none, stopped.depth, stopped.err⟩ := by
  rw [walkLoop, move]
  split
  · simp
  split
  · rfl
  rw [walkOneFollow]
  cases found : walkOne tree t cur seg with
  | none => simp
  | some next =>
    cases next with
    | link target =>
      cases target with
      | nil =>
        dsimp only
        by_cases deep : d ≥ vfsSymlinkMaxDepth
        · rw [if_pos deep, if_pos ⟨rfl, deep⟩]
        · rw [if_neg deep, if_neg fun both => deep both.2]
      | cons c target =>
        dsimp only
        by_cases deep : d ≥ vfsSymlinkMaxDepth
        · rw [if_pos deep, if_pos deep]
        · rw [if_neg deep, if_neg deep]
    | top | disk m | raw m | sys m | file m i | virt id => rfl

/-- What a walk from depth `d` has come to: the end of the path within the limit, or `ELOOP` at
the limit, with more links to follow. -/
inductive Outcome (tree : Tree) (t : Tables) (d : Nat) (cur : Node) (segs : List Text) :
    Walked → Prop
  | leads {n depth : Nat} {node : Option Node} {err : WalkError}
      (leads : Leads tree t cur segs n node err) (total : depth = d + n)
      (few : depth ≤ vfsSymlinkMaxDepth) : Outcome tree t d cur segs ⟨node, depth, err⟩
  | loops (more : ∀ n node err, Leads tree t cur segs n node err → vfsSymlinkMaxDepth < d + n) :
      Outcome tree t d cur segs ⟨none, vfsSymlinkMaxDepth, .eLoop⟩

/-- Every way over a link has followed it. -/
theorem Leads.followed {base : Node} {target : List Text}
    (first : move tree t cur seg = .follow base target)
    (leads : Leads tree t cur (seg :: rest) n node err) :
    ∃ k, n = k + 1 ∧ Leads tree t base (target ++ rest) k node err := by
  cases leads with
  | follow again later =>
    cases first.symm.trans again
    exact ⟨_, rfl, later⟩
  | stop again | go again _ => cases first.symm.trans again

variable {d : Nat} {r : Walked}

theorem Outcome.go (first : move tree t cur seg = .go mid) (later : Outcome tree t d mid rest r) :
    Outcome tree t d cur (seg :: rest) r := by
  cases later with
  | leads leads total few => exact .leads (.go first leads) total few
  | loops more =>
    refine .loops fun n node err leads => ?_
    cases leads with
    | go again later =>
      cases first.symm.trans again
      exact more _ _ _ later
    | stop again | follow again _ => cases first.symm.trans again

theorem Outcome.stop {links : Nat} (first : move tree t cur seg = .stop links err)
    (small : d ≤ vfsSymlinkMaxDepth) : Outcome tree t d cur (seg :: rest)
      (if links = 1 ∧ d ≥ vfsSymlinkMaxDepth then ⟨none, d, .eLoop⟩
        else ⟨none, d + links, err⟩) := by
  have few := (move_stop first).2
  split
  · obtain rfl : d = vfsSymlinkMaxDepth := by omega
    refine .loops fun n node e leads => ?_
    cases leads with
    | stop again =>
      cases first.symm.trans again
      omega
    | go again _ | follow again _ => cases first.symm.trans again
  · exact .leads (.stop first) rfl (by omega)

section Follow

variable {base : Node} {target : List Text} (first : move tree t cur seg = .follow base target)
include first

theorem Outcome.limit : Outcome tree t vfsSymlinkMaxDepth cur (seg :: rest)
    ⟨none, vfsSymlinkMaxDepth, .eLoop⟩ := by
  refine .loops fun n node e leads => ?_
  obtain ⟨k, rfl, -⟩ := leads.followed first
  omega

/-- The target ends without a node. -/
theorem Outcome.inside {depth : Nat}
    (nest : Outcome tree t (d + 1) base target ⟨none, depth, err⟩) :
    Outcome tree t d cur (seg :: rest) ⟨none, depth, err⟩ := by
  cases nest with
  | leads leads total few =>
    exact .leads (.follow first (leads.append_stop rest)) (by omega) few
  | loops more =>
    refine .loops fun n node e leads => ?_
    obtain ⟨k, rfl, later⟩ := leads.followed first
    rcases later.split with ⟨-, stopped⟩ | ⟨mid, k', l, rfl, front, -⟩
    · have bound := more _ _ _ stopped
      omega
    · have bound := more _ _ _ front
      omega

/-- The target leads to a node, from which the rest is walked. -/
theorem Outcome.behind {depth : Nat}
    (nest : Outcome tree t (d + 1) base target ⟨some mid, depth, err⟩)
    (later : Outcome tree t depth mid rest r) : Outcome tree t d cur (seg :: rest) r := by
  cases nest with
  | @leads k _ _ _ leads total few =>
    obtain rfl := leads.err_none
    cases later with
    | leads further sum low =>
      exact .leads (.follow first (leads.append further)) (by omega) low
    | loops more =>
      refine .loops fun n node e all => ?_
      obtain ⟨k', rfl, flat⟩ := all.followed first
      rcases flat.split with ⟨-, stopped⟩ | ⟨mid', k', l, rfl, front, back⟩
      · cases (leads.unique stopped).2.1
      · obtain ⟨rfl, same, -⟩ := leads.unique front
        cases same
        have bound := more _ _ _ back
        omega

end Follow

theorem walkLoop_outcome {nested : Nat → Node → List Text → Walked} {low : Nat}
    (inner : ∀ d base target, low ≤ d → d < vfsSymlinkMaxDepth →
      Outcome tree t (d + 1) base target (nested (d + 1) base target))
    (segs : List Text) {d : Nat} (cur : Node) (above : low ≤ d) (small : d ≤ vfsSymlinkMaxDepth) :
    Outcome tree t d cur segs (walkLoop (walkOneFollow tree t nested) d cur segs) := by
  induction segs generalizing d cur with
  | nil => exact .leads .done rfl small
  | cons seg rest ih =>
    rw [walkLoop_cons]
    cases first : move tree t cur seg with
    | go next => exact .go first (ih next above small)
    | stop links err => exact .stop first small
    | follow base target =>
      dsimp only
      split
      · obtain rfl : d = vfsSymlinkMaxDepth := by omega
        exact .limit first
      have nest := inner d base target above (by omega)
      generalize nested (d + 1) base target = walked at nest
      obtain ⟨node, depth, err⟩ := walked
      cases node with
      | none => exact nest.inside first
      | some mid =>
        cases nest with
        | leads leads total few =>
          obtain rfl := leads.err_none
          exact (Outcome.leads leads total few).behind first (ih mid (by omega) few)

/-- Enough frames for the links that are still allowed. -/
theorem walkNested_outcome {frames d : Nat} (room : vfsSymlinkMaxDepth < frames + d)
    (small : d ≤ vfsSymlinkMaxDepth) (cur : Node) (segs : List Text) :
    Outcome tree t d cur segs (walkNested tree t frames d cur segs) := by
  induction frames generalizing d cur segs with
  | zero => omega
  | succ frames ih =>
    refine walkLoop_outcome ?_ segs cur (Nat.le_refl d) small
    exact fun e base target above below => ih (by omega) below base target

/-- Enough frames for the links of the path. -/
theorem walkNested_leads {frames d : Nat} (leads : Leads tree t cur segs n node err)
    (room : n < frames) (few : d + n ≤ vfsSymlinkMaxDepth) :
    walkNested tree t frames d cur segs = ⟨node, d + n, err⟩ := by
  induction n using Nat.strongRecOn generalizing frames d cur segs node err with
  | _ n ih =>
    obtain ⟨frames, rfl⟩ := Nat.exists_eq_succ_of_ne_zero (Nat.ne_zero_of_lt room)
    rw [walkNested]
    induction segs generalizing cur with
    | nil =>
      cases leads
      rfl
    | cons seg rest inner =>
      rw [walkLoop_cons]
      cases leads with
      | stop first =>
        have links := (move_stop first).2
        rw [first]
        dsimp only
        rw [if_neg]
        omega
      | go first later =>
        rw [first]
        exact inner later
      | @follow _ base _ target _ n _ _ first later =>
        rw [first]
        dsimp only
        rw [if_neg (by omega)]
        rcases later.split with ⟨rfl, stopped⟩ | ⟨mid, k, l, rfl, front, back⟩
        · rw [ih n (by omega) stopped (by omega) (by omega), Nat.add_assoc, Nat.add_comm 1 n]
        · rw [ih k (by omega) front (by omega) (by omega)]
          have rest : walkNested tree t (frames + 1) (d + 1 + k) _ _ = _ :=
            ih l (by omega) back (by omega) (by omega)
          rw [walkNested] at rest
          dsimp only
          rw [rest]
          congr 1
          omega

/-- The stack has frames for one walk more than the limit, or for the links that the path leads
over. -/
def Roomy (tree : Tree) (t : Tables) (frames : Nat) (start : Node) (segs : List Text) : Prop :=
  vfsSymlinkMaxDepth < frames ∨ ∃ n < frames, ∃ node err, Leads tree t start segs n node err

theorem Roomy.outcome {frames : Nat} (room : Roomy tree t frames cur segs) :
    Outcome tree t 0 cur segs (walkNested tree t frames 0 cur segs) := by
  by_cases many : vfsSymlinkMaxDepth < frames
  · exact walkNested_outcome many (Nat.zero_le _) _ _
  · obtain ⟨n, few, node, err, leads⟩ := room.resolve_left many
    rw [walkNested_leads leads few (by omega)]
    exact .leads leads rfl (by omega)

theorem walkSegments_cons (follow : Node → List Text → Option Node) (cur : Node) (seg : Text)
    (rest : List Text) :
    walkSegments tree t follow cur (seg :: rest) =
      match move tree t cur seg with
      | .stop _ _ => none
      | .go next => walkSegments tree t follow next rest
      | .follow base target => follow base (target ++ rest) := by
  rw [walkSegments, move]
  split
  · rfl
  split
  · rfl
  cases found : walkOne tree t cur seg with
  | none => rfl
  | some next =>
    cases next with
    | link target =>
      cases target with
      | nil | cons c target => rfl
    | top | disk m | raw m | sys m | file m i | virt id => rfl

theorem walkSegments_iff {follow : Node → List Text → Option Node} {limit : Nat} {last : Node}
    (further : ∀ base segs, follow base segs = some last ↔
      ∃ n < limit, Leads tree t base segs n (some last) .none) (segs : List Text) (cur : Node) :
    walkSegments tree t follow cur segs = some last ↔
      ∃ n ≤ limit, Leads tree t cur segs n (some last) .none := by
  induction segs generalizing cur with
  | nil =>
    rw [walkSegments]
    constructor
    · intro same
      cases same
      exact ⟨0, Nat.zero_le _, .done⟩
    · rintro ⟨n, -, leads⟩
      cases leads
      rfl
  | cons seg rest ih =>
    rw [walkSegments_cons]
    constructor
    · intro found
      cases first : move tree t cur seg with
      | stop links err =>
        rw [first] at found
        cases found
      | go next =>
        rw [first] at found
        obtain ⟨n, few, leads⟩ := (ih next).mp found
        exact ⟨n, few, .go first leads⟩
      | follow base target =>
        rw [first] at found
        obtain ⟨n, few, leads⟩ := (further _ _).mp found
        exact ⟨n + 1, few, .follow first leads⟩
    · rintro ⟨n, few, leads⟩
      cases leads with
      | go first later =>
        rw [first]
        exact (ih _).mpr ⟨n, few, later⟩
      | follow first later =>
        rw [first]
        exact (further _ _).mpr ⟨_, few, later⟩

theorem walkPathFollow_iff (limit : Nat) {last : Node} : ∀ (cur : Node) (segs : List Text),
    walkPathFollow tree t limit cur segs = some last ↔
      ∃ n ≤ limit, Leads tree t cur segs n (some last) .none := by
  induction limit with
  | zero =>
    intro cur segs
    exact walkSegments_iff (fun _ _ => by simp) segs cur
  | succ limit ih =>
    intro cur segs
    refine walkSegments_iff (fun base segs => ?_) segs cur
    rw [ih]
    exact exists_congr fun n => and_congr_left fun _ => Nat.lt_succ_iff.symm

/-- On a roomy stack the walk gives the node that the requests are modelled with. -/
theorem node_walkNested {frames : Nat} (room : Roomy tree t frames cur segs) :
    (walkNested tree t frames 0 cur segs).node =
      walkPathFollow tree t vfsSymlinkMaxDepth cur segs := by
  have outcome := room.outcome
  generalize walkNested tree t frames 0 cur segs = r at outcome
  refine Option.ext fun last => ?_
  rw [walkPathFollow_iff]
  cases outcome with
  | @leads n _ node err leads total few =>
    constructor
    · intro reached
      dsimp only at reached
      rw [reached] at leads
      exact ⟨n, by omega, leads.err_none ▸ leads⟩
    · rintro ⟨m, _, other⟩
      exact (leads.unique other).2.1.symm
  | loops more =>
    constructor
    · intro absent
      cases absent
    · rintro ⟨n, few, leads⟩
      have bound := more _ _ _ leads
      omega

end CactKernel.Mounts
