import CactKernel.Lib.Reach
import CactKernel.Lib.Tally
import CactKernel.Vfs.Files

/-! # Opens and closes balance, references are counted

`Ledger held todo k` is the state of the books in the middle of a call. `held`
counts the references that slots of descriptor tables, or the call itself, have
on a file; the other references are the entries of socket queues and the calls of
`file_unref` that are still to be made. Dropping references keeps the books for
every `held`, whatever the worklist has come to. -/

set_option autoImplicit false

namespace CactKernel.Vfs

open Lib List Option Nat

/-! ## The counts and the updates of the state -/

def Endpoint.holds (ep : Endpoint) (f : Nat) : Nat := if ep.used then ep.fdq.count f else 0

def Work.drops (f : Nat) : Work → Nat
  | .unref g => if g = f then 1 else 0
  | _ => 0

def pending (todo : List Work) (f : Nat) : Nat := (todo.map (Work.drops f)).sum

@[simp] theorem pending_nil (f : Nat) : pending [] f = 0 := rfl

@[simp] theorem pending_cons (w : Work) (todo : List Work) (f : Nat) :
    pending (w :: todo) f = w.drops f + pending todo f := rfl

@[simp] theorem pending_append (a b : List Work) (f : Nat) :
    pending (a ++ b) f = pending a f + pending b f := by
  simp [pending]

theorem pending_unrefs (fs : List Nat) (f : Nat) : pending (fs.map .unref) f = fs.count f := by
  induction fs with
  | nil => rfl
  | cons g fs ih =>
    rw [map_cons, pending_cons, ih, count_cons, add_comm]
    simp [Work.drops]

@[simp] theorem pending_closing (node : Node) (f : Nat) : pending node.closing f = 0 := by
  cases node <;> rfl

@[simp] theorem pending_destroyIfDead (refs e f : Nat) :
    pending (Kernel.destroyIfDead refs e) f = 0 := by
  unfold Kernel.destroyIfDead
  split <;> rfl

variable {x : Endpoint} {todo : List Work}

namespace Kernel

def refcount (k : Kernel) (f : Nat) : Nat :=
  match k.object f with
  | some file => file.refcount
  | none => 0

variable {k : Kernel} {f e p fd : Nat}

theorem object_in_table {file : File} (found : k.object f = some file) :
    k.objects[f]? = some (some file) := by
  unfold object at found
  cases entry : k.objects[f]? with
  | none => simp [entry] at found
  | some x =>
    simp only [entry, join_some] at found
    rw [found]

theorem object_setObject (found : (k.object f).isSome = true) (x : Option File) (g : Nat) :
    (k.setObject f x).object g = if g = f then x else k.object g := by
  obtain ⟨file, file_eq⟩ := Option.isSome_iff_exists.mp found
  have inside := (List.getElem?_eq_some_iff.mp (object_in_table file_eq)).1
  simp only [object, setObject]
  by_cases same : g = f
  · subst same
    rw [List.getElem?_set_self inside, if_pos rfl, Option.join_some]
  · rw [List.getElem?_set_ne (Ne.symm same), if_neg same]

theorem refcount_setObject (found : (k.object f).isSome = true) (x : Option File) (g : Nat) :
    (k.setObject f x).refcount g = if g = f then (match x with
      | some file => file.refcount
      | none => 0) else k.refcount g := by
  unfold refcount
  rw [object_setObject found]
  by_cases same : g = f
  · rw [if_pos same, if_pos same]
  · rw [if_neg same, if_neg same]

theorem live_setObject {file : File} (found : k.object f = some file) (x : Option File)
    (node : Node) :
    (k.setObject f x).live node + (if file.node = node then 1 else 0) =
      k.live node + (match x with
        | some new => if new.node = node then 1 else 0
        | none => 0) :=
  sum_set (fun o : Option File => match o with
    | some new => if new.node = node then 1 else 0
    | none => 0) x (object_in_table found)

theorem setEndpoint_outside (outside : k.endpoints.length ≤ e) (x : Endpoint) :
    k.setEndpoint e x = k := by
  simp only [setEndpoint, set_eq_of_length_le outside]

theorem endpoint_outside (outside : k.endpoints.length ≤ e) :
    k.endpoint e = ⟨false, false, none, 0, []⟩ := by
  simp [endpoint, getElem?_eq_none outside]

theorem endpoint_in_table (inside : e < k.endpoints.length) :
    k.endpoints[e]? = some (k.endpoint e) := by
  simp [endpoint, inside]

theorem endpoint_setEndpoint (inside : e < k.endpoints.length) (x : Endpoint) (q : Nat) :
    (k.setEndpoint e x).endpoint q = if q = e then x else k.endpoint q := by
  simp only [endpoint, setEndpoint]
  by_cases same : q = e
  · subst same
    rw [getElem?_set_self inside, if_pos rfl, getD_some]
  · rw [getElem?_set_ne (Ne.symm same), if_neg same]

theorem field_same {β : Type} (field : Endpoint → β)
    (same : field x = field (k.endpoint e)) (i : Nat) :
    field ((k.setEndpoint e x).endpoint i) = field (k.endpoint i) := by
  by_cases inside : e < k.endpoints.length
  · rw [endpoint_setEndpoint inside]
    split
    · rename_i here
      rw [here, same]
    · rfl
  · rw [setEndpoint_outside (by omega)]

theorem used_dropPeer (k : Kernel) (q i : Nat) :
    ((k.dropPeer q).endpoint i).used = (k.endpoint i).used :=
  field_same (x := { k.endpoint q with peer := none, refs := (k.endpoint q).refs - 1 })
    Endpoint.used rfl i

theorem peer_dropPeer (k : Kernel) (q i : Nat) :
    ((k.dropPeer q).endpoint i).peer = if i = q then none else (k.endpoint i).peer := by
  by_cases inside : q < k.endpoints.length
  · rw [dropPeer, endpoint_setEndpoint inside]
    split <;> rfl
  rw [dropPeer, setEndpoint_outside (by omega)]
  split
  · rename_i here
    rw [here, endpoint_outside (by omega)]
  · rfl

theorem inside_of_used (used : (k.endpoint e).used = true) : e < k.endpoints.length := by
  by_contra outside
  rw [endpoint_outside (by omega)] at used
  cases used

theorem inside_of_peer {q : Nat} (linked : (k.endpoint e).peer = some q) :
    e < k.endpoints.length := by
  by_contra outside
  rw [endpoint_outside (by omega)] at linked
  cases linked

theorem queued_setEndpoint (inside : e < k.endpoints.length) (x : Endpoint) (f : Nat) :
    (k.setEndpoint e x).queued f + (k.endpoint e).holds f = k.queued f + x.holds f :=
  sum_set (fun ep : Endpoint => ep.holds f) x (endpoint_in_table inside)

theorem queued_same (used : x.used = (k.endpoint e).used)
    (fdq : x.fdq = (k.endpoint e).fdq) (f : Nat) : (k.setEndpoint e x).queued f = k.queued f := by
  by_cases inside : e < k.endpoints.length
  · have moved := queued_setEndpoint inside x f
    simp only [Endpoint.holds, used, fdq] at moved
    omega
  · rw [setEndpoint_outside (by omega)]

theorem queued_dropPeer (k : Kernel) (q f : Nat) : (k.dropPeer q).queued f = k.queued f :=
  queued_same (x := { k.endpoint q with peer := none, refs := (k.endpoint q).refs - 1 }) rfl rfl f

def endpointWeights (k : Kernel) : Nat := (k.endpoints.map Endpoint.weight).sum

theorem endpointWeights_same (used : x.used = (k.endpoint e).used)
    (fdq : x.fdq = (k.endpoint e).fdq) :
    (k.setEndpoint e x).endpointWeights = k.endpointWeights := by
  by_cases inside : e < k.endpoints.length
  · have moved := sum_set Endpoint.weight x (endpoint_in_table inside)
    simp only [Endpoint.weight, used, fdq] at moved
    exact add_right_cancel moved
  · rw [setEndpoint_outside (by omega)]

theorem endpointWeights_ended (used : (k.endpoint e).used = true) (x : Endpoint)
    (ended : x.used = false) :
    (k.setEndpoint e x).endpointWeights + 2 + 7 * (k.endpoint e).fdq.length =
      k.endpointWeights := by
  have moved := sum_set Endpoint.weight x (endpoint_in_table (inside_of_used used))
  simp only [Endpoint.weight, used, ended, if_true, Bool.false_eq_true, if_false] at moved
  change ((k.endpoints.set e x).map Endpoint.weight).sum + 2 + _ =
    (k.endpoints.map Endpoint.weight).sum
  omega

/-! ## Every worklist is worked off -/

theorem weight_eq (todo : List Work) (k : Kernel) :
    weight todo k = (todo.map Work.weight).sum + k.endpointWeights := rfl

theorem destroyIfDead_weight (refs e : Nat) :
    ((destroyIfDead refs e).map Work.weight).sum ≤ 1 := by
  unfold destroyIfDead
  split
  · exact Nat.le_refl 1
  · exact zero_le 1

theorem unrefs_weight (fs : List Nat) :
    ((fs.map Work.unref).map Work.weight).sum = 7 * fs.length := by
  induction fs with
  | nil => rfl
  | cons f fs ih =>
    rw [map_cons, map_cons, sum_cons, ih, length_cons]
    simp only [Work.weight]
    omega

@[simp] theorem endpointWeights_dropPeer (k : Kernel) (q : Nat) :
    (k.dropPeer q).endpointWeights = k.endpointWeights :=
  endpointWeights_same rfl rfl

theorem call_weight (w : Work) (k : Kernel) :
    ((call w k).1.map Work.weight).sum + (call w k).2.endpointWeights <
      w.weight + k.endpointWeights := by
  cases w with
  | unref f =>
    simp only [call, fileUnref]
    split
    · simp [Work.weight]
    rename_i file _
    split
    · simp [Work.weight]
    split
    · cases file.node <;>
        simp [Node.closing, Work.weight, closeVfs, setObject, endpointWeights]
    · simp [Work.weight, setObject, endpointWeights]
  | close e =>
    simp only [call, unixNodeClose]
    split
    · rw [endpointWeights_same (x := { k.endpoint e with attached := false }) rfl rfl]
      split <;> simp [Work.weight]
    · rw [endpointWeights_same (x := { k.endpoint e with attached := false }) rfl rfl]
      simp [Work.weight]
  | breakLink e =>
    simp only [call, epBreak]
    split
    · have light := destroyIfDead_weight (k.endpoint e).refs e
      simp only [Work.weight]
      omega
    · rename_i q _
      have first := destroyIfDead_weight ((k.endpoint e).refs - 1) e
      have second := destroyIfDead_weight ((((k.dropPeer e).dropPeer q).endpoint q).refs) q
      simp only [Work.weight, map_append, sum_append_nat, endpointWeights_dropPeer]
      omega
  | put e =>
    simp only [call, epPut]
    rw [endpointWeights_same (x := { k.endpoint e with refs := (k.endpoint e).refs - 1 }) rfl rfl]
    have light := destroyIfDead_weight ((k.endpoint e).refs - 1) e
    simp only [Work.weight]
    omega
  | destroy e =>
    simp only [call, epDestroy]
    split
    · rename_i used
      have ended := endpointWeights_ended used
        { k.endpoint e with used := false, peer := none, fdq := [] } rfl
      generalize k.setEndpoint e _ = dead at ended ⊢
      split
      · rw [unrefs_weight]
        simp only [Work.weight]
        omega
      rename_i q _
      simp only [map_append, sum_append_nat, unrefs_weight, endpointWeights_dropPeer]
      have light := fun refs => destroyIfDead_weight refs q
      simp only [Work.weight]
      refine Nat.lt_of_le_of_lt (Nat.add_le_add_right (Nat.add_le_add_right (light _) _) _) ?_
      omega
    · simp [Work.weight]

theorem release_run (todo : List Work) (k : Kernel) :
    settle call (weight todo k) todo k = some (k.release todo) := by
  have less : ∀ w rest s, weight ((call w s).1 ++ rest) (call w s).2 < weight (w :: rest) s := by
    intro w rest s
    have lighter := call_weight w s
    simp only [weight_eq, map_append, map_cons, sum_append_nat, sum_cons]
    omega
  obtain ⟨t, run⟩ := settle_total weight less (weight todo k) (Nat.le_refl _)
  simp [release, run]

theorem release_invariant (inv : List Work → Kernel → Prop)
    (kept : ∀ w rest k, inv (w :: rest) k → inv ((call w k).1 ++ rest) (call w k).2)
    (start : inv todo k) : inv [] (k.release todo) :=
  settle_invariant inv kept _ start (release_run todo k)

theorem call_procs (w : Work) (k : Kernel) : (call w k).2.procs = k.procs := by
  cases w with
  | unref f =>
    simp only [call, fileUnref]
    split
    · rfl
    split
    · rfl
    · split <;> rfl
  | close e => simp only [call, unixNodeClose]; split <;> rfl
  | breakLink e => simp only [call, epBreak]; split <;> rfl
  | put e => rfl
  | destroy e =>
    simp only [call, epDestroy]
    split
    · split <;> rfl
    · rfl

@[simp] theorem release_procs (todo : List Work) (k : Kernel) :
    (k.release todo).procs = k.procs :=
  release_invariant (fun _ t => t.procs = k.procs)
    (fun w _ t same => (call_procs w t).trans same) rfl

end Kernel

/-! ## The books -/

structure Ledger (held : Nat → Nat) (todo : List Work) (k : Kernel) : Prop where
  refs : ∀ f, k.refcount f = held f + k.queued f + pending todo f
  opens : ∀ node, k.opens node = k.closes node + k.live node
  linked : ∀ e q, (k.endpoint e).peer = some q →
    (k.endpoint q).used = true ∧ (k.endpoint q).peer = some e

namespace Ledger

open Kernel

variable {held : Nat → Nat} {rest : List Work} {k : Kernel} {f e q : Nat}

theorem move {held' : Nat → Nat} {todo' : List Work} (books : Ledger held todo k)
    (same : ∀ f, held f + pending todo f = held' f + pending todo' f) : Ledger held' todo' k :=
  ⟨fun f => by rw [books.refs f]; have := same f; omega, books.opens, books.linked⟩

theorem requeue {todo' : List Work} (books : Ledger held todo k)
    (same : ∀ f, pending todo f = pending todo' f) : Ledger held todo' k :=
  books.move fun f => by rw [same f]

theorem fileUnref (books : Ledger held (.unref f :: rest) k) :
    Ledger held ((Kernel.fileUnref f k).1 ++ rest) (Kernel.fileUnref f k).2 := by
  have counted : k.refcount f = held f + k.queued f + (1 + pending rest f) := by
    have := books.refs f
    simpa [Work.drops] using this
  have others : ∀ g, g ≠ f → k.refcount g = held g + k.queued g + pending rest g := by
    intro g different
    have := books.refs g
    simpa [Work.drops, Ne.symm different] using this
  cases found : k.object f with
  | none =>
    simp only [refcount, found] at counted
    omega
  | some file =>
    have isSome : (k.object f).isSome = true := by rw [found]; rfl
    have current : k.refcount f = file.refcount := by simp only [refcount, found]
    simp only [Kernel.fileUnref, found, if_neg (show file.refcount ≠ 0 by omega)]
    split
    · rename_i last
      refine ⟨fun g => ?_, fun node => ?_, books.linked⟩
      · rw [pending_append, pending_closing]
        have dropped : ((k.setObject f none).closeVfs file.node).refcount g =
          if g = f then 0 else k.refcount g := refcount_setObject isSome none g
        rw [dropped]
        change _ = held g + k.queued g + (0 + pending rest g)
        by_cases same : g = f
        · subst same
          rw [if_pos rfl]
          omega
        · rw [if_neg same, others g same, zero_add]
      · have moved := live_setObject found none node
        have before := books.opens node
        simp only [closeVfs]
        change k.opens node = _ + (k.setObject f none).live node
        by_cases here : file.node = node
        · subst here
          rw [Function.update_self]
          simp only [if_true] at moved
          change _ = k.closes file.node + 1 + _
          omega
        · rw [Function.update_of_ne (Ne.symm here)]
          simp only [if_neg here] at moved
          change _ = k.closes node + _
          omega
    · rename_i several
      refine ⟨fun g => ?_, fun node => ?_, books.linked⟩
      · rw [nil_append, refcount_setObject isSome]
        change _ = held g + k.queued g + pending rest g
        by_cases same : g = f
        · subst same
          rw [if_pos rfl]
          dsimp only
          omega
        · rw [if_neg same, others g same]
      · have moved := live_setObject found
          (some { file with refcount := file.refcount - 1 }) node
        have before := books.opens node
        change k.opens node = k.closes node + (k.setObject f _).live node
        dsimp only at moved
        omega

theorem setEndpoint (books : Ledger held rest k)
    (used : x.used = (k.endpoint e).used) (fdq : x.fdq = (k.endpoint e).fdq)
    (peer : x.peer = (k.endpoint e).peer) : Ledger held rest (k.setEndpoint e x) := by
  refine ⟨fun g => ?_, books.opens, fun a b link => ?_⟩
  · rw [queued_same used fdq]
    exact books.refs g
  · rw [field_same Endpoint.peer peer] at link ⊢
    rw [field_same Endpoint.used used]
    exact books.linked a b link

theorem severed {k' : Kernel} (books : Ledger held rest k) (link : (k.endpoint e).peer = some q)
    (peers : ∀ i, (k'.endpoint i).peer = if i = e ∨ i = q then none else (k.endpoint i).peer)
    (users : ∀ i, i ≠ e → (k'.endpoint i).used = (k.endpoint i).used) (a b : Nat)
    (joined : (k'.endpoint a).peer = some b) :
    (k'.endpoint b).used = true ∧ (k'.endpoint b).peer = some a := by
  rw [peers a] at joined
  split at joined
  · cases joined
  rename_i apart
  obtain ⟨used, back⟩ := books.linked a b joined
  have notFirst : b ≠ e := by
    rintro rfl
    rw [link] at back
    exact apart (.inr (some.inj back).symm)
  have notSecond : b ≠ q := by
    rintro rfl
    rw [(books.linked e b link).2] at back
    exact apart (.inl (some.inj back).symm)
  rw [users b notFirst, peers b, if_neg (by rintro (h | h); exacts [notFirst h, notSecond h])]
  exact ⟨used, back⟩

theorem unixNodeClose (books : Ledger held (.close e :: rest) k) :
    Ledger held ((Kernel.unixNodeClose e k).1 ++ rest) (Kernel.unixNodeClose e k).2 := by
  have released : Ledger held rest (k.setEndpoint e { k.endpoint e with attached := false }) :=
    Ledger.setEndpoint (books.move fun f => by simp [Work.drops]) rfl rfl rfl
  unfold Kernel.unixNodeClose
  dsimp only
  split
  · refine released.move fun f => ?_
    split <;> simp [Work.drops]
  · exact released

theorem epBreak (books : Ledger held (.breakLink e :: rest) k) :
    Ledger held ((Kernel.epBreak e k).1 ++ rest) (Kernel.epBreak e k).2 := by
  have before : Ledger held rest k := books.move fun f => by simp [Work.drops]
  unfold Kernel.epBreak
  dsimp only
  split
  · exact before.move fun f => by simp
  rename_i q link
  have alone : Ledger held rest ((k.dropPeer e).dropPeer q) := by
    refine ⟨fun f => ?_, before.opens, severed before link (fun i => ?_) fun i _ => ?_⟩
    · rw [queued_dropPeer, queued_dropPeer]
      exact before.refs f
    · rw [peer_dropPeer, peer_dropPeer]
      by_cases first : i = q
      · rw [if_pos first, if_pos (.inr first)]
      · rw [if_neg first]
        simp [first]
    · rw [used_dropPeer, used_dropPeer]
  exact alone.requeue fun f => by simp

theorem epPut (books : Ledger held (.put e :: rest) k) :
    Ledger held ((Kernel.epPut e k).1 ++ rest) (Kernel.epPut e k).2 := by
  have before : Ledger held rest k := books.move fun f => by simp [Work.drops]
  have dropped : Ledger held rest
      (k.setEndpoint e { k.endpoint e with refs := (k.endpoint e).refs - 1 }) :=
    before.setEndpoint rfl rfl rfl
  exact dropped.move fun f => by simp [Kernel.epPut]

theorem epDestroy (books : Ledger held (.destroy e :: rest) k) :
    Ledger held ((Kernel.epDestroy e k).1 ++ rest) (Kernel.epDestroy e k).2 := by
  have before : Ledger held rest k := books.move fun f => by simp [Work.drops]
  unfold Kernel.epDestroy
  dsimp only
  split
  · rename_i used
    have inside := inside_of_used used
    have emptied : ∀ f, (k.setEndpoint e
        { k.endpoint e with used := false, peer := none, fdq := [] }).queued f +
        (k.endpoint e).fdq.count f = k.queued f := by
      intro f
      have moved := queued_setEndpoint inside
        { k.endpoint e with used := false, peer := none, fdq := [] } f
      simpa [Endpoint.holds, used] using moved
    have drained : ∀ f, k.refcount f = held f + (k.setEndpoint e
        { k.endpoint e with used := false, peer := none, fdq := [] }).queued f +
        pending ((k.endpoint e).fdq.map .unref ++ rest) f := by
      intro f
      have counted := before.refs f
      have moved := emptied f
      rw [pending_append, pending_unrefs]
      omega
    split
    · rename_i alone
      refine ⟨drained, before.opens, fun a b joined => ?_⟩
      rw [endpoint_setEndpoint inside] at joined ⊢
      split at joined
      · cases joined
      obtain ⟨busy, back⟩ := before.linked a b joined
      have other : b ≠ e := by
        rintro rfl
        rw [alone] at back
        cases back
      rw [if_neg other]
      exact ⟨busy, back⟩
    · rename_i q link
      have alone : Ledger held ((k.endpoint e).fdq.map .unref ++ rest) ((k.setEndpoint e
          { k.endpoint e with used := false, peer := none, fdq := [] }).dropPeer q) := by
        refine ⟨fun f => ?_, before.opens, severed before link (fun i => ?_) fun i other => ?_⟩
        · rw [queued_dropPeer]
          exact drained f
        · rw [peer_dropPeer, endpoint_setEndpoint inside]
          by_cases second : i = q
          · rw [if_pos second, if_pos (.inr second)]
          rw [if_neg second]
          simp only [second, or_false]
          split <;> rfl
        · rw [used_dropPeer, endpoint_setEndpoint inside, if_neg other]
      exact alone.requeue fun f => by simp
  · exact before

theorem call (w : Work) (books : Ledger held (w :: rest) k) :
    Ledger held ((Kernel.call w k).1 ++ rest) (Kernel.call w k).2 := by
  cases w with
  | unref f => exact books.fileUnref
  | close e => exact books.unixNodeClose
  | breakLink e => exact books.epBreak
  | put e => exact books.epPut
  | destroy e => exact books.epDestroy

theorem release (books : Ledger held todo k) :
    Ledger held [] (k.release todo) :=
  release_invariant (Ledger held) (fun w _ _ step => Ledger.call w step) books

end Ledger

end CactKernel.Vfs
