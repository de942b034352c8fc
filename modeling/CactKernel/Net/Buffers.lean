import CactKernel.Net.Tcp

/-! # Who owns a row of TCP buffers

As long as no connection is handed over by `accept`, slot `i` and row `i` belong
together: the socket behind handle `i` is the only one over row `i`. The hand-over
leaves the accepted socket on the row of the listening slot and builds the next
listening socket over the same row. -/

set_option autoImplicit false

namespace CactKernel.Net

open Option Function Or

variable {T : Smoltcp}

/-- No two sockets of the set were built over one row. -/
def Exclusive (n : Stack T) : Prop :=
  ∀ set h h' s s', n.socks = some set → set h = some (.tcp s) → set h' = some (.tcp s') →
    T.row s = T.row s' → h = h'

/-- An `accept` that gets past its checks: slot `li` holds an established connection that
came in on a listening port, and slot `ci` is free. -/
def HandsOver (n : Stack T) (li ci : Nat) : Prop :=
  li < tcpMaxSockets ∧ ci < tcpMaxSockets ∧ (n.tcpSockets ci).used = false ∧
    ∃ set h s, n.socks = some set ∧ n.tcpHandle li = some h ∧ set.getTcp h = some s ∧
      T.state s = .established ∧ T.listenPort s ≠ 0

def Keeps (n : Stack T) : Action T → Prop
  | .accept li ci => ¬ HandsOver n li ci
  | _ => True

theorem SocketSet.getTcp_some {set : SocketSet T.TcpSock} {h : Nat} {s : T.TcpSock} :
    set.getTcp h = some s ↔ set h = some (.tcp s) := by
  rw [getTcp]
  split
  · rename_i found same
    rw [same]
    simp
  rename_i other
  constructor
  · intro absent
    cases absent
  · intro there
    exact absurd there (other s)

theorem Stack.removeSocket_cases {n n' : Stack T} {taken : Option Nat}
    (run : n.removeSocket taken = some n') :
    (∃ h set, taken = some h ∧ n.socks = some set ∧
      n' = n.setSocks (update set h none)) ∨
    ((taken = none ∨ n.socks = none) ∧ n' = n) := by
  cases taken with
  | none => exact inr ⟨inl rfl, (some.inj run).symm⟩
  | some h =>
    cases present : n.socks with
    | none =>
      simp only [Stack.removeSocket, present, some.injEq] at run
      exact inr ⟨inr rfl, run.symm⟩
    | some set =>
      simp only [Stack.removeSocket, present] at run
      obtain ⟨set', removed, rfl⟩ := map_eq_some_iff.mp run
      obtain rfl := T.remove_some removed
      exact inl ⟨h, set, rfl, rfl, rfl⟩

/-- The socket behind a handle. -/
def Stack.sockAt (n : Stack T) (h : Nat) : Option (Socket T.TcpSock) :=
  n.socks.bind (· h)

theorem Stack.sockAt_eq {n : Stack T} {set : SocketSet T.TcpSock} (present : n.socks = some set) :
    n.sockAt = set := by
  funext h
  rw [sockAt, present, bind_some]

/-- Slots, handles and sockets while they belong together. -/
structure Rows (n : Stack T) : Prop where
  ready : n.stackReady = n.socks.isSome
  handle : ∀ {i h : Nat}, n.tcpHandle i = some h → ∃ s, n.sockAt h = some (.tcp s) ∧ T.row s = i
  socket : ∀ {h : Nat} {s : T.TcpSock}, n.sockAt h = some (.tcp s) → n.tcpHandle (T.row s) = some h
  free : ∀ {i : Nat}, (n.tcpSockets i).used = false → n.tcpHandle i = none
  udp : ∀ {i h : Nat}, n.udpHandle i = some h → n.sockAt h = some (.udp i)

namespace Rows

variable {n n' : Stack T}

theorem exclusive (rows : Rows n) : Exclusive n := by
  intro set h h' s s' present first second same
  rw [← Stack.sockAt_eq present] at first second
  have owner := rows.socket first
  have owner' := rows.socket second
  rw [same, owner'] at owner
  exact (some.inj owner).symm

theorem handle_none (rows : Rows n) (down : n.socks = none) (i : Nat) : n.tcpHandle i = none := by
  cases held : n.tcpHandle i with
  | none => rfl
  | some h =>
    obtain ⟨s, there, -⟩ := rows.handle held
    simp [Stack.sockAt, down] at there

theorem udp_none (rows : Rows n) (down : n.socks = none) (i : Nat) : n.udpHandle i = none := by
  cases held : n.udpHandle i with
  | none => rfl
  | some h =>
    have there := rows.udp held
    simp [Stack.sockAt, down] at there

theorem of_set {set set' : SocketSet T.TcpSock} (rows : Rows n) (present : n.socks = some set)
    (tcp : ∀ h s, set h = some (.tcp s) → ∃ s', set' h = some (.tcp s') ∧ T.row s' = T.row s)
    (back : ∀ h s', set' h = some (.tcp s') → ∃ s, set h = some (.tcp s) ∧ T.row s' = T.row s)
    (udp : ∀ h i, set h = some (.udp i) → set' h = some (.udp i)) : Rows (n.setSocks set') where
  ready := by
    rw [Stack.setSocks, rows.ready, present]
    rfl
  handle := by
    intro i h held
    obtain ⟨s, found, row⟩ := rows.handle held
    obtain ⟨s', found', row'⟩ := tcp h s (Stack.sockAt_eq present ▸ found)
    exact ⟨s', found', row'.trans row⟩
  socket := by
    intro h s' found
    obtain ⟨s, found', row⟩ := back h s' found
    rw [row]
    exact rows.socket (Stack.sockAt_eq present ▸ found')
  free := rows.free
  udp held := udp _ _ (Stack.sockAt_eq present ▸ rows.udp held)

variable {h i sock j : Nat} {r : Int × Stack T}

theorem put {set : SocketSet T.TcpSock} {s s' : T.TcpSock} (rows : Rows n)
    (present : n.socks = some set)
    (found : set.getTcp h = some s) (row : T.row s' = T.row s) :
    Rows (n.setSocks (set.put h s')) := by
  rw [SocketSet.getTcp_some] at found
  apply rows.of_set present
  · intro g t there
    by_cases same : g = h
    · subst same
      rw [found] at there
      cases there
      exact ⟨s', update_self .., row⟩
    · exact ⟨t, by rw [SocketSet.put, update_of_ne same]; exact there, rfl⟩
  · intro g t there
    by_cases same : g = h
    · subst same
      rw [SocketSet.put, update_self] at there
      cases there
      exact ⟨s, found, row⟩
    · rw [SocketSet.put, update_of_ne same] at there
      exact ⟨t, there, rfl⟩
  · intro g i there
    have apart : g ≠ h := by
      intro same
      rw [same, found] at there
      cases there
    rw [SocketSet.put, update_of_ne apart]
    exact there

theorem setSlot (rows : Rows n) {slot : TcpSlot} (kept : slot.used = false → n.tcpHandle i = none) :
    Rows (n.setSlot i slot) where
  ready := rows.ready
  handle := rows.handle
  socket := rows.socket
  free := by
    intro j unused
    change (update n.tcpSockets i slot j).used = false at unused
    by_cases same : j = i
    · subst same
      rw [update_self] at unused
      exact kept unused
    · rw [update_of_ne same] at unused
      exact rows.free unused
  udp := rows.udp

/-! ## The stack -/

theorem init (rows : Rows n) (run : n.stackInit = some n') : Rows n' := by
  rw [Stack.stackInit] at run
  split at run
  · exact some.inj run ▸ rows
  rename_i down
  have bare : n.socks = none := by
    rw [rows.ready] at down
    simpa using down
  obtain ⟨⟨g, first⟩, added, run⟩ := bind_eq_some_iff.mp run
  obtain ⟨⟨g', second⟩, added', run⟩ := bind_eq_some_iff.mp run
  cases run
  obtain ⟨-, rfl⟩ := T.add_some added
  obtain ⟨-, rfl⟩ := T.add_some added'
  constructor
  · rfl
  · intro i h held
    rw [rows.handle_none bare] at held
    cases held
  · intro h s found
    change update (update _ g _) g' _ h = _ at found
    rw [update_apply, update_apply] at found
    split at found
    · cases found
    split at found <;> cases found
  · intro i _
    exact rows.handle_none bare i
  · intro i h held
    rw [rows.udp_none bare] at held
    cases held

theorem teardown (n : Stack T) : Rows n.stackTeardown := by
  constructor
  · rfl
  · intro i h held
    cases held
  · intro h s up
    cases up
  · intro i _
    rfl
  · intro i h held
    cases held

theorem poll (rows : Rows n) (wire : T.Wire) : Rows (n.stackPoll wire) := by
  rw [Stack.stackPoll]
  split
  · split
    · rename_i set present
      have moved : Rows (n.setSocks (T.poll set wire)) := by
        apply rows.of_set present
        · exact fun h s found => T.poll_tcp wire found
        · exact fun h s' found => T.poll_back found
        · exact fun h i found => T.poll_udp wire found
      have used : ∀ i, (n.syncSlot (T.poll set wire) i).used = (n.tcpSockets i).used := by
        intro i
        rw [Stack.syncSlot]
        split
        · split <;> rfl
        · rfl
      constructor
      · exact moved.ready
      · exact moved.handle
      · exact moved.socket
      · intro i unused
        exact rows.free ((used i).symm.trans unused)
      · exact moved.udp
    · exact rows
  · exact rows

/-! ## TCP -/

theorem slotSocket_some {set : SocketSet T.TcpSock} (found : n.slotSocket sock = some (set, h)) :
    sock < tcpMaxSockets ∧ n.socks = some set ∧ n.tcpHandle sock = some h := by
  rw [Stack.slotSocket] at found
  split at found
  · rename_i inside
    obtain ⟨g, held, found⟩ := bind_eq_some_iff.mp found
    obtain ⟨set', present, found⟩ := bind_eq_some_iff.mp found
    cases found
    exact ⟨inside, present, held⟩
  · cases found

theorem added {set : SocketSet T.TcpSock} {g idx : Nat} (rows : Rows n)
    (present : n.socks = some set)
    (empty : set g = none) (unheld : n.tcpHandle idx = none)
    (ready : n'.stackReady = n.stackReady)
    (socks : n'.socks = some (update set g (some (.tcp (T.new idx)))))
    (handle : n'.tcpHandle = update n.tcpHandle idx (some g))
    (udp : n'.udpHandle = n.udpHandle)
    (free : ∀ i, (n'.tcpSockets i).used = false → i ≠ idx ∧ (n.tcpSockets i).used = false) :
    Rows n' := by
  have before := Stack.sockAt_eq present
  have after := Stack.sockAt_eq socks
  have old : ∀ {h x}, n.sockAt h = some x → n'.sockAt h = some x := by
    intro h x there
    rw [before] at there
    rw [after, update_of_ne]
    · exact there
    · rintro rfl
      rw [empty] at there
      cases there
  constructor
  · rw [ready, rows.ready, present, socks]
    rfl
  · intro i h held
    rw [handle] at held
    by_cases same : i = idx
    · subst same
      rw [update_self] at held
      cases held
      exact ⟨T.new i, by rw [after, update_self], T.row_new i⟩
    · rw [update_of_ne same] at held
      obtain ⟨s, there, row⟩ := rows.handle held
      exact ⟨s, old there, row⟩
  · intro h s there
    rw [after] at there
    rw [handle]
    by_cases eq : h = g
    · subst eq
      rw [update_self] at there
      cases there
      rw [T.row_new, update_self]
    rw [update_of_ne eq, ← before] at there
    have held := rows.socket there
    have other : T.row s ≠ idx := by
      intro row
      rw [row, unheld] at held
      cases held
    rw [update_of_ne other]
    exact held
  · intro i unused
    obtain ⟨other, before⟩ := free i unused
    rw [handle, update_of_ne other]
    exact rows.free before
  · intro i h held
    exact old (rows.udp (udp ▸ held))

theorem tcpSocket {r : Option Nat × Stack T} (rows : Rows n) (run : n.tcpSocket = some r) :
    Rows r.2 := by
  rw [Stack.tcpSocket] at run
  split at run
  · exact some.inj run ▸ rows
  split at run
  · exact some.inj run ▸ rows
  rename_i idx found
  have unused : (n.tcpSockets idx).used = false := by
    have first := List.find?_some found
    simpa using first
  split at run
  · cases run
    exact rows.setSlot fun _ => rows.free unused
  rename_i set present
  obtain ⟨⟨g, set'⟩, added, run⟩ := bind_eq_some_iff.mp run
  cases run
  obtain ⟨empty, rfl⟩ := T.add_some added
  apply rows.added present empty (rows.free unused)
  · rfl
  · rfl
  · rfl
  · rfl
  intro i free
  change (update n.tcpSockets idx _ i).used = false at free
  by_cases same : i = idx
  · rw [same, update_self] at free
    cases free
  · rw [update_of_ne same] at free
    exact ⟨same, free⟩

theorem listen {port : UInt16} (rows : Rows n) (run : n.tcpListen sock port = some r) :
    Rows r.2 := by
  rw [Stack.tcpListen] at run
  split at run
  · exact some.inj run ▸ rows
  rename_i set h found
  obtain ⟨-, present, -⟩ := slotSocket_some found
  obtain ⟨s, there, run⟩ := bind_eq_some_iff.mp run
  split at run
  · exact some.inj run ▸ rows
  rename_i s' listening
  cases run
  exact rows.put present there (T.row_listen listening)

theorem connect {addr : T.Addr} (rows : Rows n) (run : n.tcpConnect sock addr = some r) :
    Rows r.2 := by
  rw [Stack.tcpConnect] at run
  split at run
  · exact some.inj run ▸ rows
  rename_i set h found
  obtain ⟨-, present, -⟩ := slotSocket_some found
  obtain ⟨s, there, run⟩ := bind_eq_some_iff.mp run
  split at run
  · exact some.inj run ▸ rows
  split at run
  · exact some.inj run ▸ rows
  rename_i s' connected
  cases run
  exact rows.put present there (T.row_connect connected)

theorem removed {set : SocketSet T.TcpSock} (rows : Rows n) (present : n.socks = some set)
    (ready : n'.stackReady = n.stackReady) (socks : n'.socks = some (update set h none))
    (handle : ∀ i, n'.tcpHandle i = if n.tcpHandle i = some h then none else n.tcpHandle i)
    (udp : ∀ i, n'.udpHandle i = if n.udpHandle i = some h then none else n.udpHandle i)
    (free : ∀ i, (n'.tcpSockets i).used = false → n.tcpHandle i = some h ∨
      (n.tcpSockets i).used = false) :
    Rows n' := by
  have after : ∀ g, g ≠ h → n'.sockAt g = n.sockAt g := by
    intro g apart
    rw [Stack.sockAt_eq socks, Stack.sockAt_eq present, update_of_ne apart]
  constructor
  · rw [ready, rows.ready, present, socks]
    rfl
  · intro i g held
    rw [handle] at held
    split at held
    · cases held
    rename_i other
    obtain ⟨s, there, row⟩ := rows.handle held
    exact ⟨s, (after g fun eq => other (eq ▸ held)).trans there, row⟩
  · intro g s there
    have apart : g ≠ h := by
      rintro rfl
      rw [Stack.sockAt_eq socks, update_self] at there
      cases there
    have held := rows.socket (after g apart ▸ there)
    rw [handle, held, if_neg]
    intro eq
    exact apart (some.inj eq)
  · intro i unused
    rw [handle]
    rcases free i unused with taken | before
    · rw [if_pos taken]
    · rw [rows.free before]
      exact if_neg (by simp)
  · intro i g held
    rw [udp] at held
    split at held
    · cases held
    rename_i other
    exact (after g fun eq => other (eq ▸ held)).trans (rows.udp held)

/-- A TCP handle belongs to one slot and to no UDP slot. -/
theorem handle_unique (rows : Rows n) (held : n.tcpHandle i = some h)
    (other : n.tcpHandle j = some h) : i = j := by
  obtain ⟨s, there, row⟩ := rows.handle held
  obtain ⟨s', there', row'⟩ := rows.handle other
  rw [there] at there'
  cases there'
  exact row.symm.trans row'

theorem handle_not_udp (rows : Rows n) (held : n.tcpHandle i = some h) :
    n.udpHandle j ≠ some h := by
  intro other
  obtain ⟨s, there, -⟩ := rows.handle held
  rw [rows.udp other] at there
  cases there

theorem udp_unique (rows : Rows n) (held : n.udpHandle i = some h)
    (other : n.udpHandle j = some h) :
    i = j := by
  have there := rows.udp held
  rw [rows.udp other] at there
  cases there
  rfl

theorem close (rows : Rows n) (run : n.tcpClose sock = some r) : Rows r.2 := by
  rw [Stack.tcpClose] at run
  split at run
  · exact some.inj run ▸ rows
  obtain ⟨m, taken, run⟩ := bind_eq_some_iff.mp run
  cases run
  rcases Stack.removeSocket_cases taken with ⟨h, set, held, present, rfl⟩ | ⟨nothing, rfl⟩
  · apply rows.removed present
    · rfl
    · rfl
    · intro i
      change update n.tcpHandle sock none i = _
      by_cases same : i = sock
      · subst same
        rw [update_self, if_pos held]
      rw [update_of_ne same, if_neg]
      intro other
      exact same (rows.handle_unique other held)
    · intro i
      exact (if_neg (rows.handle_not_udp held)).symm
    · intro i unused
      change (update n.tcpSockets sock _ i).used = false at unused
      by_cases same : i = sock
      · exact inl (same ▸ held)
      · rw [update_of_ne same] at unused
        exact inr unused
  · have unheld : n.tcpHandle sock = none := by
      rcases nothing with absent | down
      · exact absent
      · exact rows.handle_none down sock
    have same : n.setTcpHandle sock none = n := by
      rw [Stack.setTcpHandle, ← unheld, update_eq_self]
    rw [same]
    exact rows.setSlot fun _ => unheld

/-! ## UDP -/

theorem udpAlloc {r : Option Nat × Stack T} (rows : Rows n) (run : n.udpSockAlloc = some r) :
    Rows r.2 := by
  rw [Stack.udpSockAlloc] at run
  split at run
  · exact some.inj run ▸ rows
  split at run
  · exact some.inj run ▸ rows
  rename_i set present
  split at run
  · exact some.inj run ▸ rows
  rename_i idx found
  obtain ⟨⟨g, set'⟩, added, run⟩ := bind_eq_some_iff.mp run
  cases run
  obtain ⟨empty, rfl⟩ := T.add_some added
  have apart : ∀ {h x}, set h = some x → h ≠ g := by
    intro h x there eq
    rw [eq, empty] at there
    cases there
  have widened : Rows (n.setSocks (update set g (some (.udp idx)))) := by
    apply rows.of_set present
    · intro h s there
      exact ⟨s, by rw [update_of_ne (apart there)]; exact there, rfl⟩
    · intro h s there
      have other : h ≠ g := by
        intro eq
        rw [eq, update_self] at there
        cases there
      rw [update_of_ne other] at there
      exact ⟨s, there, rfl⟩
    · intro h i there
      rw [update_of_ne (apart there)]
      exact there
  constructor
  · exact widened.ready
  · exact widened.handle
  · exact widened.socket
  · exact widened.free
  · intro i h held
    by_cases same : i = idx
    · subst same
      change update n.udpHandle i _ i = some h at held
      rw [update_self] at held
      cases held
      exact update_self ..
    · change update n.udpHandle idx _ i = some h at held
      rw [update_of_ne same] at held
      exact widened.udp held

theorem udpFree (rows : Rows n) (run : n.udpSockFree i = some n') : Rows n' := by
  rw [Stack.udpSockFree] at run
  split at run
  · exact some.inj run ▸ rows
  obtain ⟨m, taken, run⟩ := bind_eq_some_iff.mp run
  cases run
  rcases Stack.removeSocket_cases taken with ⟨h, set, held, present, rfl⟩ | ⟨-, rfl⟩
  · apply rows.removed present
    · rfl
    · rfl
    · intro j
      exact (if_neg fun other => rows.handle_not_udp other held).symm
    · intro j
      change update n.udpHandle i none j = _
      by_cases same : j = i
      · subst same
        rw [update_self, if_pos held]
      rw [update_of_ne same, if_neg]
      intro other
      exact same (rows.udp_unique other held)
    · intro j unused
      exact inr unused
  · constructor
    · exact rows.ready
    · exact rows.handle
    · exact rows.socket
    · exact rows.free
    · intro j h held
      change update m.udpHandle i none j = some h at held
      by_cases same : j = i
      · subst same
        rw [update_self] at held
        cases held
      · rw [update_of_ne same] at held
        exact rows.udp held

end Rows

/-! ## The hand-over -/

theorem accept_cases {n : Stack T} {r : Int × Stack T} {li ci : Nat}
    (run : n.tcpAcceptTransfer li ci = some r) :
    (r = (-1, n) ∧ ¬ HandsOver n li ci) ∨
      ∃ set h port, HandsOver n li ci ∧ n.socks = some set ∧ n.tcpHandle li = some h ∧
        port ≠ 0 ∧ n.acceptInto li ci set h port = some r := by
  rw [Stack.tcpAcceptTransfer] at run
  split at run
  · rename_i outside
    refine inl ⟨(some.inj run).symm, ?_⟩
    rintro ⟨inside, inside', -⟩
    omega
  rename_i inside
  rw [not_or, Nat.not_le, Nat.not_le] at inside
  obtain ⟨answer, acceptable, run⟩ := bind_eq_some_iff.mp run
  rw [Stack.acceptable] at acceptable
  split at acceptable
  · rename_i missing
    cases acceptable
    refine inl ⟨(some.inj run).symm, ?_⟩
    rintro ⟨_, _, _, set, h, s, present, held, -⟩
    simp [Stack.slotSocket, inside.1, held, present] at missing
  rename_i set lh found
  obtain ⟨-, present, held⟩ := Rows.slotSocket_some found
  obtain ⟨s, there, acceptable⟩ := bind_eq_some_iff.mp acceptable
  split at acceptable
  · rename_i ready
    cases acceptable
    dsimp only at run
    split at run
    · rename_i used
      refine inl ⟨(some.inj run).symm, ?_⟩
      rintro ⟨_, _, unused, -⟩
      rw [used] at unused
      cases unused
    · rename_i unused
      have passes : HandsOver n li ci :=
        ⟨inside.1, inside.2, by simpa using unused, set, lh, s, present, held, there, ready⟩
      exact inr ⟨set, lh, T.listenPort s, passes, present, held, ready.2, run⟩
  · rename_i idle
    cases acceptable
    refine inl ⟨(some.inj run).symm, ?_⟩
    rintro ⟨_, _, _, set', h', s', present', held', there', ready⟩
    obtain rfl := some.inj (present.symm.trans present')
    obtain rfl := some.inj (held.symm.trans held')
    obtain rfl := some.inj (there.symm.trans there')
    exact idle ready

theorem Rows.shared {n : Stack T} {r : Int × Stack T} {li ci h : Nat} {set : SocketSet T.TcpSock}
    {port : UInt16} (rows : Rows n) (passes : HandsOver n li ci) (present : n.socks = some set)
    (held : n.tcpHandle li = some h) (run : n.acceptInto li ci set h port = some r) :
    ¬ Exclusive r.2 := by
  obtain ⟨s, there, row⟩ := rows.handle held
  rw [Stack.sockAt_eq present] at there
  rw [Stack.acceptInto, rows.free passes.2.2.1] at run
  obtain ⟨set₁, kept, run⟩ := bind_eq_some_iff.mp run
  cases kept
  obtain ⟨⟨nh, set₂⟩, added, run⟩ := bind_eq_some_iff.mp run
  obtain ⟨empty, rfl⟩ := T.add_some added
  have apart : h ≠ nh := by
    intro eq
    rw [eq, empty] at there
    cases there
  obtain ⟨nls, fresh, run⟩ := bind_eq_some_iff.mp run
  -- whether or not the new socket could listen, it stands in the set over row `li`
  have both : ∃ set' s', r.2.socks = some set' ∧ set' h = some (.tcp s) ∧
      set' nh = some (.tcp s') ∧ T.row s' = li := by
    rw [SocketSet.getTcp_some, update_self] at fresh
    cases fresh
    split at run
    · cases run
      exact ⟨_, _, rfl, by rw [update_of_ne apart]; exact there,
        update_self .., T.row_new li⟩
    rename_i s' listening
    cases run
    have sameRow : T.row s' = li := (T.row_listen listening).trans (T.row_new li)
    refine ⟨_, s', rfl, ?_, update_self .., sameRow⟩
    rw [SocketSet.put, update_of_ne apart, update_of_ne apart]
    exact there
  obtain ⟨set', s', up, old, new, row'⟩ := both
  intro exclusive
  exact apart (exclusive set' h nh s s' up old new (row.trans row'.symm))

/-! ## Every run -/

theorem Rows.step {n n' : Stack T} {a : Action T} (rows : Rows n) (keeps : Keeps n a)
    (move : Step n a n') : Rows n' := by
  cases a with
  | init => exact rows.init move
  | teardown => exact some.inj move ▸ Rows.teardown n
  | poll wire => exact some.inj move ▸ rows.poll wire
  | socket =>
    obtain ⟨r, run, rfl⟩ := map_eq_some_iff.mp move
    exact rows.tcpSocket run
  | listen sock port =>
    obtain ⟨r, run, rfl⟩ := map_eq_some_iff.mp move
    exact rows.listen run
  | connect sock addr =>
    obtain ⟨r, run, rfl⟩ := map_eq_some_iff.mp move
    exact rows.connect run
  | accept li ci =>
    obtain ⟨r, run, rfl⟩ := map_eq_some_iff.mp move
    rcases accept_cases run with ⟨same, -⟩ | ⟨_, _, _, passes, -⟩
    · rw [same]
      exact rows
    · exact absurd passes keeps
  | close sock =>
    obtain ⟨r, run, rfl⟩ := map_eq_some_iff.mp move
    exact rows.close run
  | udpAlloc =>
    obtain ⟨r, run, rfl⟩ := map_eq_some_iff.mp move
    exact rows.udpAlloc run
  | udpFree i => exact rows.udpFree move

theorem reach_rows {n : Stack T} (reached : Lib.Reach Initial (Lib.restrict Keeps Step) n) :
    Rows n := by
  apply Lib.Reach.invariant Rows _ _ reached
  · intro s initial
    rw [initial]
    exact Rows.teardown Stack.start
  · intro s a s' rows move
    exact rows.step move.1 move.2

/-- Over every run without a hand-over the rows are exclusive, and a hand-over is exactly
the step that ends it. -/
theorem tcp_rows_exclusive {n : Stack T}
    (reached : Lib.Reach Initial (Lib.restrict Keeps Step) n) :
    Exclusive n ∧ ∀ a n', Step n a n' → (Exclusive n' ↔ Keeps n a) := by
  have rows := reach_rows reached
  refine ⟨rows.exclusive, ?_⟩
  intro a n' move
  constructor
  · intro exclusive
    cases a with
    | accept li ci =>
      obtain ⟨r, run, rfl⟩ := map_eq_some_iff.mp move
      rcases accept_cases run with ⟨-, keeps⟩ | ⟨set, h, port, passes, present, held, -, into⟩
      · exact keeps
      · exact absurd exclusive (rows.shared passes present held into)
    | _ => trivial
  · intro keeps
    exact (rows.step keeps move).exclusive

/-- A listener on port 80 and the connection of one client. -/
def oneClient : List (Action plain) :=
  [.init, .socket, .listen 0 80, .poll fun _ => (.established, 80)]

theorem tcp_rows_exclusive_client :
    ∃ n : Stack plain, (∃ set : SocketSet plain.TcpSock, n.socks = some set ∧
        set.getTcp 2 = some ⟨0, .established, 80⟩) ∧ Exclusive n ∧
      ∀ a n', Step n a n' → (Exclusive n' ↔ Keeps n a) := by
  refine ⟨_, ?_, tcp_rows_exclusive (@Lib.Reach.of_actions _ _ _ _ _ _ Stack.step oneClient ?_
    (.start rfl) rfl)⟩
  · exact ⟨_, rfl, rfl⟩
  · intro a member s t move
    refine ⟨?_, move⟩
    cases a with
    | accept li ci => simp [oneClient] at member
    | _ => trivial

/-- After the `accept` of the client the sockets behind handles 2 and 3 are both built over
row 0. -/
theorem accepted_shares_row : ∃ n : Stack plain, Lib.Reach Initial Step n ∧ ¬ Exclusive n := by
  refine ⟨_, .of_foldlM (fun _ _ _ move => move) (oneClient ++ [Action.accept 0 1]) (.start rfl)
    rfl, ?_⟩
  intro exclusive
  exact absurd (exclusive _ 2 3 _ _ rfl rfl rfl rfl) (by decide)

end CactKernel.Net
