import NanoRaft.Lib.System
import NanoRaft.LeaderInvariant

/-!
# Connections and their numbers

A connection is registered under the number of its descriptor, and the kernel gives the
number of a closed descriptor to a later connection. A proxy remembers its connection twice:
as a number, `m_iConnFd_`, which `HandshakeQ` passes to `Server_CloseConn`, and as a
`weak_ptr`, through which it sends. Here a connection object is told from the earlier ones
of the same number, and the server is run under accepts, closes and handshakes in any order.

* `unregisters_once_iff`: in which runs no connection is unregistered that is not registered.
-/

namespace NanoRaft

/-- A connection object: its number, and how many had that number up to it. -/
structure ConnId where
  fd : ℕ
  gen : ℕ
  deriving DecidableEq, Repr

/-- A server with the descriptors the kernel has open, how often each number was given out,
and the `m_pstConn_` of the proxies. -/
structure Registry where
  server : RaftServer
  isOpen : ℕ → Bool
  gen : ℕ → ℕ
  ref : UInt32 → Option ConnId

inductive RegistryEvent where
  /-- `TcpAcceptCallback`: the kernel hands out a number that is not open. -/
  | accept (fd : ℕ) (addr : Bytes)
  /-- `CloseCallback` on a connection that its peer has closed or reset. -/
  | close (fd : ℕ)
  /-- A `handshake_q` arrives. -/
  | handshake (puts : Puts) (fd : ℕ) (q : HandshakeQ)

namespace RaftServer

/-- The number that `HandshakeQ` passes to `Server_CloseConn`. -/
def replaced (s : RaftServer) (fd : ℕ) (q : HandshakeQ) : Option ℕ :=
  if s.role = .Leader then (s.proxyConnFd q.nodeid).filter fun iOldConnFd => iOldConnFd ≠ fd
  else none

theorem replaced_eq_some {s : RaftServer} {fd old : ℕ} {q : HandshakeQ} :
    s.replaced fd q = some old ↔
      s.role = .Leader ∧ s.proxyConnFd q.nodeid = some old ∧ old ≠ fd := by
  rw [RaftServer.replaced]
  split_ifs with hrole
  · rw [Option.filter_eq_some_iff]
    simp [hrole]
  · simp [hrole]

/-- The number that a message makes `Server_CloseConn` close. -/
def closes (s : RaftServer) (fd : ℕ) : Message → Option ℕ
  | .handshake_q q => s.replaced fd q
  | _ => none

theorem closes_ne {s : RaftServer} {fd iFd : ℕ} {m : Message} (h : s.closes fd m = some iFd) :
    iFd ≠ fd := by
  cases m with
  | handshake_q q => exact (replaced_eq_some.mp h).2.2
  | handshake_r | appendentries_q | appendentries_r => cases h

end RaftServer

namespace Registry

/-- The object registered under a number. -/
def object (r : Registry) (fd : ℕ) : ConnId := ⟨fd, r.gen fd⟩

/-- The object is registered, which keeps it alive. -/
def Live (r : Registry) (o : ConnId) : Prop :=
  o.gen = r.gen o.fd ∧ (r.server.conns.find? o.fd).isSome

instance decidableLive (r : Registry) (o : ConnId) : Decidable (r.Live o) :=
  inferInstanceAs (Decidable (_ ∧ _))

def enabled (r : Registry) : RegistryEvent → Bool
  | .accept fd _ => !r.isOpen fd
  | .close fd => (r.server.conns.find? fd).isSome
  | .handshake _ fd _ => (r.server.conns.find? fd).isSome

/-- After a handshake that leaves the server `s`: the kernel has closed the number that was
replaced, and the leader's proxy points to the connection. -/
def handshaken (r : Registry) (fd : ℕ) (q : HandshakeQ) (s : RaftServer) : Registry where
  server := s
  isOpen := match r.server.replaced fd q with
    | some iOldConnFd => Function.update r.isOpen iOldConnFd false
    | none => r.isOpen
  gen := r.gen
  ref := if r.server.role = .Leader then Function.update r.ref q.nodeid (some (r.object fd))
    else r.ref

/-- One callback. What `HandshakeQ` sends is left out: it changes nothing here. -/
def handle (r : Registry) : RegistryEvent → Result Registry
  | .accept fd addr =>
    .ok { r with
      server := r.server.accept fd addr
      isOpen := Function.update r.isOpen fd true
      gen := Function.update r.gen fd (r.gen fd + 1) }
  | .close fd => do
    let s ← r.server.offlineConn fd
    pure { r with server := s, isOpen := Function.update r.isOpen fd false }
  | .handshake puts fd q => do
    let (s, _) ← r.server.handshakeQ puts fd q
    pure (r.handshaken fd q s)

/-- One callback; one that ends in a fault has no successor. -/
def next (r : Registry) (e : RegistryEvent) : Option Registry :=
  if r.enabled e then (r.handle e).toOption else none

/-- `start` has reached the event loop. -/
def Started (r : Registry) : Prop :=
  (∃ put disk iRaftPort iNodeID,
    RaftServer.launchStart put disk iRaftPort iNodeID = .ok r.server) ∧
  (∀ fd, r.isOpen fd = false) ∧ ∀ x, r.ref x = none

/-- `join` has reached the event loop. -/
def Joined (r : Registry) : Prop :=
  ∃ disk fd szAddress raftPort, r.server = .launchJoin disk fd szAddress raftPort ∧
    (∀ k, r.isOpen k = decide (k = fd)) ∧ ∀ x, r.ref x = none

/-- The runs of a server launched by `start`, which is the leader. -/
def leading : System Registry RegistryEvent := ⟨Started, next⟩

/-- The runs of a server launched by `start` or by `join`. -/
def registering : System Registry RegistryEvent := ⟨fun r => r.Started ∨ r.Joined, next⟩

/-- `RaftProxy::SendAppendEntries`: through the `weak_ptr`, which locks as long as the object
is there. -/
def sendAppendEntries (r : Registry) (dwID : UInt32) : Result Sends :=
  match r.ref dwID with
  | none => .ok []
  | some o => if r.Live o then r.server.connSendAppendEntries o.fd else .ok []

/-! ## Steps -/

variable {r r' : Registry}

theorem isOpen_handshaken (r : Registry) (fd : ℕ) (q : HandshakeQ) (s : RaftServer) (k : ℕ) :
    (r.handshaken fd q s).isOpen k =
      if r.server.replaced fd q = some k then false else r.isOpen k := by
  rw [handshaken]
  cases hrep : r.server.replaced fd q with
  | none => simp
  | some old =>
    show Function.update r.isOpen old false k = _
    rw [Function.update_apply]
    by_cases hk : k = old
    · simp [hk]
    · rw [if_neg hk, if_neg fun heq => hk (Option.some.inj heq).symm]

theorem ref_handshaken (r : Registry) (fd : ℕ) (q : HandshakeQ) (s : RaftServer) (x : UInt32) :
    (r.handshaken fd q s).ref x =
      if r.server.role = .Leader ∧ x = q.nodeid then some (r.object fd) else r.ref x := by
  rw [handshaken]
  split_ifs with hlead hx hx
  · show Function.update r.ref q.nodeid _ x = _
    rw [Function.update_apply, if_pos hx.2]
  · show Function.update r.ref q.nodeid _ x = _
    rw [Function.update_apply, if_neg fun heq => hx ⟨hlead, heq⟩]
  · exact absurd hx.1 hlead
  · rfl

/-- Everything one event can do. -/
theorem next_cases {e : RegistryEvent} (h : r.next e = some r') :
    (∃ fd addr, e = .accept fd addr ∧ r.isOpen fd = false ∧ r' = { r with
      server := r.server.accept fd addr
      isOpen := Function.update r.isOpen fd true
      gen := Function.update r.gen fd (r.gen fd + 1) }) ∨
    (∃ fd, e = .close fd ∧ r' = { r with
      server := { r.server with conns := r.server.conns.erase fd }
      isOpen := Function.update r.isOpen fd false }) ∨
    (∃ puts fd q c s ms, e = .handshake puts fd q ∧ r.server.conns.find? fd = some c ∧
      r.server.handshakeQ puts fd q = .ok (s, ms) ∧ r' = r.handshaken fd q s) := by
  rw [next, Option.ite_none_right_eq_some, Except.toOption_eq_some] at h
  obtain ⟨hen, h⟩ := h
  cases e with
  | accept fd addr =>
    obtain rfl := Except.ok.inj h
    exact Or.inl ⟨fd, addr, rfl, by simpa [enabled] using hen, rfl⟩
  | close fd =>
    obtain ⟨c, hc⟩ := Option.isSome_iff_exists.mp hen
    rw [handle, RaftServer.offlineConn, hc] at h
    exact Or.inr (Or.inl ⟨fd, rfl, (Except.ok.inj h).symm⟩)
  | handshake puts fd q =>
    obtain ⟨c, hc⟩ := Option.isSome_iff_exists.mp hen
    obtain ⟨⟨s, ms⟩, hs, h⟩ := Except.bind_eq_ok.mp h
    rw [Except.pure_eq_ok] at h
    exact Or.inr (Or.inr ⟨puts, fd, q, c, s, ms, rfl, hc, hs, h.symm⟩)

/-! ### What a handshake does to the connections -/

variable {puts : Puts} {fd : ℕ} {q : HandshakeQ} {s' : RaftServer} {ms : Sends}

/-- A known node: its proxy and the connection are tied to each other, and the connection whose
number the proxy remembered is forgotten. -/
theorem retied_links {s : RaftServer} {old : ℕ} {c : Conn} (hc : s.conns.find? fd = some c)
    (hlead : s.role = .Leader) (hold : s.proxyConnFd q.nodeid = some old)
    (hret : s.Retied fd old q s') :
    (∀ x, s'.proxyConnFd x = if x = q.nodeid then some fd else s.proxyConnFd x) ∧
    ∀ k, (s'.conns.find? k).map Conn.proxy =
      if k = fd then some (some q.nodeid)
      else if s.replaced fd q = some k then none else (s.conns.find? k).map Conn.proxy := by
  obtain ⟨p, hp, hfd⟩ := RaftServer.proxyConnFd_eq_some.mp hold
  refine ⟨fun x => ?_, fun k => ?_⟩
  · rw [RaftServer.proxyConnFd, hret.proxys]
    split_ifs with hx
    · rw [hp]
      rfl
    · rfl
  · rw [hret.conns, hc]
    by_cases hk : k = fd
    · rw [if_pos hk, if_pos hk]
      rfl
    · have hrep : s.replaced fd q = some k ↔ k = old := by
        rw [RaftServer.replaced_eq_some, hold, Option.some.injEq]
        exact ⟨fun h => h.2.1.symm, fun h => ⟨hlead, h.symm, hk⟩⟩
      rw [if_neg hk, if_neg hk]
      by_cases hko : k = old
      · rw [if_pos hko, if_pos (hrep.mpr hko)]
        rfl
      · rw [if_neg hko, if_neg fun heq => hko (hrep.mp heq)]

/-- A new node: its proxy and the connection are tied to each other. -/
theorem welcomed_links {s : RaftServer} {put : PutResult} {c : Conn}
    (hnone : s.proxyConnFd q.nodeid = none) (hwel : s.Welcomed put fd c q s') :
    (∀ x, s'.proxyConnFd x = if x = q.nodeid then some fd else s.proxyConnFd x) ∧
    ∀ k, (s'.conns.find? k).map Conn.proxy =
      if k = fd then some (some q.nodeid)
      else if s.replaced fd q = some k then none else (s.conns.find? k).map Conn.proxy := by
  have hrep : ∀ k, s.replaced fd q ≠ some k := fun k heq => by
    have hk' := (RaftServer.replaced_eq_some.mp heq).2.1
    rw [hnone] at hk'
    cases hk'
  refine ⟨fun x => ?_, fun k => ?_⟩
  · rw [RaftServer.proxyConnFd, hwel.proxys]
    split_ifs with hx
    · rfl
    · rfl
  · rw [hwel.conns, if_neg (hrep k)]
    split_ifs with hk
    · rfl
    · rfl

/-- The leader ties the node and the connection to each other and forgets the connection
whose number its proxy remembered. -/
theorem handshakeQ_links {s : RaftServer} {c : Conn} (hc : s.conns.find? fd = some c)
    (hlead : s.role = .Leader) (h : s.handshakeQ puts fd q = .ok (s', ms)) :
    s'.role = .Leader ∧
    (∀ x, s'.proxyConnFd x = if x = q.nodeid then some fd else s.proxyConnFd x) ∧
    ∀ k, (s'.conns.find? k).map Conn.proxy =
      if k = fd then some (some q.nodeid)
      else if s.replaced fd q = some k then none else (s.conns.find? k).map Conn.proxy := by
  rcases RaftServer.handshakeQ_cases h with ⟨hnone, _⟩ | ⟨hrole, _⟩ |
    ⟨_, ⟨old, hold, hret⟩, _⟩ | ⟨_, hnone, ⟨c', _, hwel⟩, _⟩
  · rw [hc] at hnone
    cases hnone
  · exact absurd hlead hrole
  · refine ⟨?_, retied_links hc hlead hold hret⟩
    rw [hret.frame]
    exact hlead
  · refine ⟨?_, welcomed_links hnone hwel⟩
    rw [hwel.frame]
    exact hlead

/-- Any other server does nothing but answer. -/
theorem handshakeQ_of_not_leader {s : RaftServer} (hrole : s.role ≠ .Leader)
    (h : s.handshakeQ puts fd q = .ok (s', ms)) : s' = s := by
  rcases RaftServer.handshakeQ_cases h with ⟨_, heq, _⟩ | ⟨_, heq, _⟩ | ⟨hlead, _⟩ | ⟨hlead, _⟩
  · exact heq
  · exact heq
  · exact absurd hlead hrole
  · exact absurd hlead hrole

/-- What is registered after a handshake: all that was, but for the connection it replaces. -/
theorem handshakeQ_registered {s : RaftServer} {c : Conn} (hc : s.conns.find? fd = some c)
    (h : s.handshakeQ puts fd q = .ok (s', ms)) (k : ℕ) :
    (s'.conns.find? k).isSome =
      ((s.conns.find? k).isSome && decide (s.replaced fd q ≠ some k)) := by
  by_cases hlead : s.role = .Leader
  · obtain ⟨_, _, hconns⟩ := handshakeQ_links hc hlead h
    have hk : (s'.conns.find? k).isSome = ((s'.conns.find? k).map Conn.proxy).isSome := by simp
    rw [hk, hconns]
    by_cases hkf : k = fd
    · -- the connection the handshake came on is not the one replaced
      have hrep : s.replaced fd q ≠ some fd := fun heq =>
        (RaftServer.replaced_eq_some.mp heq).2.2 rfl
      rw [if_pos hkf, hkf, hc]
      simp [hrep]
    · rw [if_neg hkf]
      split_ifs with hrep
      · simp [hrep]
      · simp [hrep]
  · have hrep : s.replaced fd q = none := by rw [RaftServer.replaced, if_neg hlead]
    rw [handshakeQ_of_not_leader hlead h, hrep]
    simp

/-! ## Invariants -/

/-- The kernel's table and the map of connections agree, and a proxy remembers one object,
which was there at some time, as number and as pointer. -/
structure Wf (r : Registry) : Prop where
  isOpen : ∀ fd, r.isOpen fd = (r.server.conns.find? fd).isSome
  number : ∀ x, r.server.proxyConnFd x = (r.ref x).map ConnId.fd
  past : ∀ x o, r.ref x = some o → o.gen ≤ r.gen o.fd

theorem wf_of_init (h : r.Started ∨ r.Joined) : r.Wf := by
  rcases h with ⟨⟨put, disk, port, id, hs⟩, hopen, href⟩ | ⟨disk, fd, addr, port, hs, hopen, href⟩
  · have hs' := RaftServer.launchStart_eq_ok hs
    obtain ⟨db, happ, _⟩ := RaftServer.appendCfgLog_frame put
      ({ RaftServer.new disk with role := .Leader }) RaftServer.startHost port id
    rw [← hs'] at happ
    refine ⟨fun fd => ?_, fun x => ?_, fun x o hx => ?_⟩
    · rw [hopen, happ]
      rfl
    · rw [href, happ]
      rfl
    · rw [href] at hx
      cases hx
  · refine ⟨fun k => ?_, fun x => ?_, fun x o hx => ?_⟩
    · rw [hopen, hs]
      show _ = ((OrdMap.empty.insert fd _).find? k).isSome
      rw [OrdMap.find?_insert]
      by_cases hk : k = fd
      · simp [hk]
      · rw [decide_eq_false hk, if_neg hk]
        rfl
    · rw [href, hs]
      rfl
    · rw [href] at hx
      cases hx

theorem wf_accept (h : r.Wf) (fd : ℕ) (addr : Bytes) : Wf { r with
    server := r.server.accept fd addr
    isOpen := Function.update r.isOpen fd true
    gen := Function.update r.gen fd (r.gen fd + 1) } := by
  refine ⟨fun k => ?_, h.number, fun x o hx => ?_⟩
  · show Function.update r.isOpen fd true k = ((r.server.conns.insert fd _).find? k).isSome
    rw [Function.update_apply, OrdMap.find?_insert]
    split_ifs with hk
    · rfl
    · exact h.isOpen k
  · have hle := h.past x o hx
    show o.gen ≤ Function.update r.gen fd (r.gen fd + 1) o.fd
    rw [Function.update_apply]
    split_ifs with hk
    · rw [hk] at hle
      omega
    · exact hle

theorem wf_close (h : r.Wf) (fd : ℕ) : Wf { r with
    server := { r.server with conns := r.server.conns.erase fd }
    isOpen := Function.update r.isOpen fd false } := by
  refine ⟨fun k => ?_, h.number, h.past⟩
  show Function.update r.isOpen fd false k = ((r.server.conns.erase fd).find? k).isSome
  rw [Function.update_apply, OrdMap.find?_erase]
  split_ifs with hk
  · rfl
  · exact h.isOpen k

theorem wf_handshaken (h : r.Wf) {c : Conn} (hc : r.server.conns.find? fd = some c)
    (hs : r.server.handshakeQ puts fd q = .ok (s', ms)) : (r.handshaken fd q s').Wf := by
  have hopen : ∀ k, (r.handshaken fd q s').isOpen k = (s'.conns.find? k).isSome := by
    intro k
    rw [isOpen_handshaken, handshakeQ_registered hc hs, h.isOpen k]
    split_ifs with hrep
    · simp [hrep]
    · simp [hrep]
  by_cases hlead : r.server.role = .Leader
  · obtain ⟨_, hnum, _⟩ := handshakeQ_links hc hlead hs
    refine ⟨hopen, fun x => ?_, fun x o hx => ?_⟩
    · show s'.proxyConnFd x = _
      rw [hnum, ref_handshaken]
      split_ifs with h1 h2 h2
      · rfl
      · exact absurd ⟨hlead, h1⟩ h2
      · exact absurd h2.2 h1
      · exact h.number x
    · rw [ref_handshaken] at hx
      split_ifs at hx
      · rw [← Option.some.inj hx]
        exact le_refl _
      · exact h.past x o hx
  · obtain rfl := handshakeQ_of_not_leader hlead hs
    refine ⟨hopen, fun x => ?_, fun x o hx => ?_⟩
    · rw [ref_handshaken, if_neg fun h => hlead h.1]
      exact h.number x
    · rw [ref_handshaken, if_neg fun h => hlead h.1] at hx
      exact h.past x o hx

theorem wf_next {e : RegistryEvent} (hwf : r.Wf) (h : r.next e = some r') : r'.Wf := by
  rcases next_cases h with ⟨fd, addr, _, _, rfl⟩ | ⟨fd, _, rfl⟩ |
    ⟨puts, fd, q, c, s, ms, _, hc, hs, rfl⟩
  · exact wf_accept hwf fd addr
  · exact wf_close hwf fd
  · exact wf_handshaken hwf hc hs

theorem wf_of_reachable {C : Registry → RegistryEvent → Prop} (h : registering.Reachable C r) :
    r.Wf :=
  h.invariant (I := Wf) (fun _ => wf_of_init) fun _ _ _ _ hwf _ hn => wf_next hwf hn

/-- The server launched by `start` stays the leader. -/
theorem leader_of_leading {C : Registry → RegistryEvent → Prop} (h : leading.Reachable C r) :
    r.server.role = .Leader := by
  apply h.invariant (I := fun r => r.server.role = .Leader)
  · rintro r ⟨⟨put, disk, port, id, hs⟩, _⟩
    rw [RaftServer.launchStart_eq_ok hs, RaftServer.appendCfgLog]
    split_ifs
    · rfl
    · rfl
  · intro r e r' _ hlead _ hn
    rcases next_cases hn with ⟨fd, addr, _, _, rfl⟩ | ⟨fd, _, rfl⟩ |
      ⟨puts, fd, q, c, s, ms, _, hc, hs, rfl⟩
    · exact hlead
    · exact hlead
    · exact (handshakeQ_links hc hlead hs).1

end Registry

namespace RaftServer

/-- Only a handshake touches connections and the connections of proxies. -/
theorem proc_other {s s' : RaftServer} {puts : Puts} {fd : ℕ} {ms : Sends} {m : Message}
    (hm : ∀ q, m ≠ .handshake_q q) (h : s.proc puts fd m = .ok (s', ms)) :
    s'.conns = s.conns ∧ ∀ x, s'.proxyConnFd x = s.proxyConnFd x := by
  cases m with
  | handshake_q q => exact absurd rfl (hm q)
  | handshake_r r =>
    injection h with h
    injection h with h _
    rw [← h]
    exact ⟨rfl, fun x => rfl⟩
  | appendentries_q q =>
    obtain ⟨r, ht, _⟩ := proc_appendEntriesQ h
    obtain ⟨_, _, _, _, _, _, _, hs'⟩ := appendEntriesQ_frame ht
    rw [hs']
    exact ⟨rfl, fun x => rfl⟩
  | appendentries_r r =>
    rcases appendEntriesR_cases (proc_appendEntriesR h).1 with ⟨_, hs'⟩ | ⟨_, b, hb⟩
    · rw [hs']
      exact ⟨rfl, fun x => rfl⟩
    · obtain ⟨k, hs'⟩ := changeCommitIndex_frame hb
      rw [hs']
      exact ⟨countReply_conns s fd r, countReply_proxyConnFd s fd r⟩

/-! ## Unregistering twice -/

/-- `HandshakeQ` passes `end()` to `erase` when the number it replaces is not registered. -/
theorem handshakeQ_eraseEnd_iff {s : RaftServer} {puts : Puts} {fd : ℕ} {q : HandshakeQ} {c : Conn}
    (hc : s.conns.find? fd = some c) :
    s.handshakeQ puts fd q = .error .eraseEnd ↔
      ∃ old, s.replaced fd q = some old ∧ s.conns.find? old = none := by
  unfold handshakeQ
  rw [hc]
  by_cases hlead : s.role = .Leader
  · simp only [hlead, ne_eq, not_true_eq_false, if_false]
    have hnum : (s.setRaftPort fd q.raftport).proxyConnFd q.nodeid = s.proxyConnFd q.nodeid := rfl
    rw [hnum]
    cases hold : s.proxyConnFd q.nodeid with
    | none =>
      refine iff_of_false (fun h => ?_) ?_
      · rcases Except.bind_eq_error.mp h with h | ⟨_, _, h⟩
        · cases RaftServer.handshakeNew_error h
        · cases h
      · rintro ⟨old, hrep, _⟩
        have hsome := (RaftServer.replaced_eq_some.mp hrep).2.1
        rw [hold] at hsome
        cases hsome
    | some old =>
      have hknown := handshakeKnown_eraseEnd_iff (s := s.setRaftPort fd q.raftport) fd hold
      have hfind : old ≠ fd → (s.setRaftPort fd q.raftport).conns.find? old = s.conns.find? old :=
        fun hne => (OrdMap.find?_modify _ _ _ _).trans (if_neg hne)
      constructor
      · intro h
        rcases Except.bind_eq_error.mp h with h | ⟨_, _, h⟩
        · obtain ⟨hne, hnone⟩ := hknown.mp h
          rw [hfind hne] at hnone
          exact ⟨old, replaced_eq_some.mpr ⟨hlead, hold, hne⟩, hnone⟩
        · cases h
      · rintro ⟨old', hrep, hnone⟩
        obtain ⟨_, hold', hne⟩ := RaftServer.replaced_eq_some.mp hrep
        rw [hold] at hold'
        obtain rfl := Option.some.inj hold'
        exact Except.bind_eq_error.mpr (Or.inl (hknown.mpr ⟨hne, by rw [hfind hne]; exact hnone⟩))
  · simp only [hlead, ne_eq, not_false_eq_true, if_true]
    refine iff_of_false (fun h => by cases h) ?_
    rintro ⟨old, hrep, _⟩
    exact hlead (RaftServer.replaced_eq_some.mp hrep).1

/-- The handshake of a known node comes back if the connection it replaces is registered. -/
theorem handshakeQ_of_found {s : RaftServer} (puts : Puts) {fd old : ℕ} {q : HandshakeQ} {c : Conn}
    (hc : s.conns.find? fd = some c) (hlead : s.role = .Leader)
    (hold : s.proxyConnFd q.nodeid = some old)
    (hfound : old ≠ fd → (s.conns.find? old).isSome) :
    ∃ s' ms, s.handshakeQ puts fd q = .ok (s', ms) := by
  have hnum : (s.setRaftPort fd q.raftport).proxyConnFd q.nodeid = some old := hold
  have hfound' : old ≠ fd → ((s.setRaftPort fd q.raftport).conns.find? old).isSome := by
    intro hne
    unfold setRaftPort
    rw [OrdMap.find?_modify, if_neg hne]
    exact hfound hne
  obtain ⟨s', hs'⟩ := handshakeKnown_of_found hnum hfound'
  refine ⟨s', [(fd, .handshake_r ⟨true⟩)], ?_⟩
  unfold handshakeQ
  rw [hc]
  dsimp only
  rw [if_neg (not_not.mpr hlead), hnum]
  dsimp only
  rw [hs']
  rfl

end RaftServer

namespace Registry

variable {r : Registry}

/-- A node that already has a proxy presents itself on the connection the proxy has, or
while the number the proxy remembers is open. -/
def OldIsOpen (r : Registry) : RegistryEvent → Prop
  | .handshake _ fd q => ∀ old, r.server.role = .Leader →
      r.server.proxyConnFd q.nodeid = some old → old ≠ fd → r.isOpen old = true
  | _ => True

instance decidableOldIsOpen (r : Registry) : (e : RegistryEvent) → Decidable (r.OldIsOpen e)
  | .handshake _ fd q => decidable_of_iff (r.server.role = .Leader →
      ((r.server.proxyConnFd q.nodeid).all fun old => decide (old = fd) || r.isOpen old) = true) (by
    show _ ↔ ∀ old, r.server.role = .Leader → r.server.proxyConnFd q.nodeid = some old →
      old ≠ fd → r.isOpen old = true
    cases r.server.proxyConnFd q.nodeid with
    | none => simp
    | some old => simp [or_iff_not_imp_left])
  | .accept _ _ => isTrue trivial
  | .close _ => isTrue trivial

/-- A callback unregisters only a connection that is registered, unless it is a handshake of a
node whose proxy remembers another number, which is not open any more. -/
theorem ne_eraseEnd_iff (hwf : r.Wf) {e : RegistryEvent} (hen : r.enabled e) :
    r.handle e ≠ .error .eraseEnd ↔ r.OldIsOpen e := by
  cases e with
  | accept fd addr => exact iff_of_true (fun h => by cases h) trivial
  | close fd =>
    obtain ⟨c, hc⟩ := Option.isSome_iff_exists.mp hen
    refine iff_of_true (fun h => ?_) trivial
    rw [handle, RaftServer.offlineConn, hc] at h
    cases h
  | handshake puts fd q =>
    obtain ⟨c, hc⟩ := Option.isSome_iff_exists.mp hen
    have hfail : r.handle (.handshake puts fd q) = .error .eraseEnd ↔
        r.server.handshakeQ puts fd q = .error .eraseEnd := by
      rw [handle]
      cases r.server.handshakeQ puts fd q with
      | error f =>
        constructor
        · intro h
          rw [Except.error.inj h]
        · intro h
          rw [Except.error.inj h]
          rfl
      | ok x => exact iff_of_false (fun h => by cases h) fun h => by cases h
    rw [ne_eq, hfail, RaftServer.handshakeQ_eraseEnd_iff hc, not_exists]
    refine forall_congr' fun old => ?_
    -- a number is open exactly as long as a connection is registered under it
    rw [RaftServer.replaced_eq_some, hwf.isOpen old, Option.isSome_iff_ne_none]
    tauto

/-- **Unregistered once.** In a run of callbacks that the kernel and the messages can cause, no
callback unregisters a connection that is not registered if and only if the old number is open
at every handshake. -/
theorem unregisters_once_iff {es : List RegistryEvent} (hinit : r.Started ∨ r.Joined)
    (hen : registering.Allowed (fun r e => r.enabled e = true) r es) :
    (∀ bs e u, bs ++ [e] <+: es → registering.run r bs = some u →
      u.handle e ≠ .error .eraseEnd) ↔ registering.Allowed OldIsOpen r es := by
  rw [System.allowed_iff_forall] at hen ⊢
  have hstep : ∀ bs e u, bs ++ [e] <+: es → registering.run r bs = some u →
      (u.handle e ≠ .error .eraseEnd ↔ u.OldIsOpen e) := by
    intro bs e u hbs hu
    refine ne_eraseEnd_iff (wf_of_reachable (C := System.anyStep) ?_) (hen bs e u hbs hu)
    exact System.reachable_in_run (System.reachable_init hinit) (System.allowed_anyStep es r)
      ((List.prefix_append bs [e]).trans hbs) hu
  constructor
  · intro hall bs e u hbs hu
    exact (hstep bs e u hbs hu).mp (hall bs e u hbs hu)
  · intro hall bs e u hbs hu
    exact (hstep bs e u hbs hu).mpr (hall bs e u hbs hu)

/-- Node 1 has been started and listens. -/
def launched : Registry where
  server := ({ RaftServer.new ⟨none, .empty⟩ with role := .Leader } : RaftServer).appendCfgLog
    ⟨true, []⟩ RaftServer.startHost 7777 1
  isOpen _ := false
  gen _ := 0
  ref _ := none

theorem started_launched : launched.Started :=
  ⟨⟨⟨true, []⟩, ⟨none, .empty⟩, 7777, 1, rfl⟩, fun _ => rfl, fun _ => rfl⟩

/-- Node `x` presents itself on connection `fd`. -/
def hello (fd : ℕ) (x : UInt32) : RegistryEvent := .handshake .allOk fd ⟨7778, x⟩

/-- Node 2 comes back on a second connection while the first one is still there. -/
def comesBack : List RegistryEvent := [.accept 5 [], hello 5 2, .accept 6 [], hello 6 2]

/-- The first connection is still open when node 2 is back, and the handshake closes it. -/
theorem unregisters_once_two : ∃ t : Registry, registering.run launched comesBack = some t ∧
    t.isOpen 5 = false ∧
    ∀ bs e u, bs ++ [e] <+: comesBack → registering.run launched bs = some u →
      u.handle e ≠ .error .eraseEnd := by
  have hrun : ((registering.run launched comesBack).any
      fun t : Registry => !t.isOpen 5) = true := by decide +kernel
  obtain ⟨t, ht, hclosed⟩ := (Option.any_eq_true _ _).mp hrun
  exact ⟨t, ht, (Bool.not_eq_true' _).mp hclosed,
    (unregisters_once_iff (Or.inl started_launched) (by decide +kernel)).mpr (by decide +kernel)⟩

/-- The handler has left with `erase(end())`. -/
def erasesEnd (r : Registry) (e : RegistryEvent) : Bool :=
  match r.handle e with
  | .error f => f = .eraseEnd
  | .ok _ => false

/-- The peer has closed the first connection of node 2, and the node comes back. -/
theorem unregisters_twice : ¬ ∀ r, registering.Reachable System.anyStep r →
    ∀ e, r.enabled e = true → r.handle e ≠ .error .eraseEnd := by
  intro hall
  obtain ⟨r, hr, hp⟩ := System.exists_of_run [.accept 5 [], hello 5 2, .close 5, .accept 6 []]
    (fun r : Registry => r.enabled (hello 6 2) && r.erasesEnd (hello 6 2))
    (System.reachable_init (S := registering) (Or.inl started_launched))
    (System.allowed_anyStep _ _) (by decide +kernel)
  rw [Bool.and_eq_true] at hp
  obtain ⟨hen, hfail⟩ := hp
  have hok := hall r hr (hello 6 2) hen
  rw [erasesEnd] at hfail
  cases hh : r.handle (hello 6 2) with
  | error f =>
    rw [hh] at hok hfail
    exact hok (by rw [of_decide_eq_true hfail])
  | ok r' =>
    rw [hh] at hfail
    cases hfail

end Registry
end NanoRaft
