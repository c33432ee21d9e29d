import NanoRaft.Lib.System
import NanoRaft.LeaderInvariant

/-!
# Members

The nodes that a leader counts for its majority are the keys of `m_stProxys_`, and the nodes
of its cluster those that its `CFGADD` entries name. `HandshakeQ` adds a new node to both: to
the proxies first, and to the log if the `Put` succeeds.

* `members_agree_iff`: in which runs of a leader the two name the same nodes.
-/

namespace NanoRaft

/-- What happens to a node launched by `start`. -/
inductive ServingEvent where
  /-- `TcpAcceptCallback`: the kernel hands out a number that is not in use. -/
  | accept (fd : ℕ) (addr : Bytes)
  /-- `CloseCallback` on a connection that its peer has closed or reset. -/
  | close (fd : ℕ)
  /-- A `handshake_q` arrives. -/
  | handshake (puts : Puts) (fd : ℕ) (q : HandshakeQ)
  /-- An `appendentries_r` arrives. -/
  | reply (puts : Puts) (fd : ℕ) (r : AppendEntriesR)

namespace RaftServer

def canServe (s : RaftServer) : ServingEvent → Bool
  | .accept fd _ => (s.conns.find? fd).isNone
  | .close fd => (s.conns.find? fd).isSome
  | .handshake _ fd _ => (s.conns.find? fd).isSome
  | .reply _ fd _ => (s.conns.find? fd).isSome

/-- One callback; what it sends is left out. -/
def serve (s : RaftServer) : ServingEvent → Result RaftServer
  | .accept fd addr => .ok (s.accept fd addr)
  | .close fd => s.offlineConn fd
  | .handshake puts fd q => do
    let (s, _) ← s.handshakeQ puts fd q
    pure s
  | .reply puts fd r => s.appendEntriesR puts fd r

/-- The runs of a node launched by `start` on empty directories. -/
def serving : System RaftServer ServingEvent where
  init s := ∃ put iRaftPort iNodeID,
    launchStart put ⟨none, .empty⟩ iRaftPort iNodeID = .ok s
  next s e := if s.canServe e then (s.serve e).toOption else none

/-- The node ids of the `CFGADD` entries, in log order. -/
def cfgIds (es : List Entry) : List UInt32 :=
  (es.filter fun e => e.type = .CFGADD).map Entry.nodeid

/-- Entry 0 is the leader's own, and the proxies are those of the nodes that the entries after
it name. -/
structure Named (s : RaftServer) (dwID : UInt32) : Prop where
  own : ∃ e, s.entries.head? = some e ∧ e.type = .CFGADD ∧ e.nodeid = dwID
  keys : ∀ x, (s.proxys.find? x).isSome ↔ x ∈ cfgIds s.entries.tail

/-- Proxies and log name the same nodes, each of them once, and the leader has no proxy of
itself. -/
structure Agrees (s : RaftServer) (dwID : UInt32) : Prop extends Named s dwID where
  once : (cfgIds s.entries).Nodup
  self : s.proxys.find? dwID = none

/-- A node that is new to the leader has another id than the leader's, and the `Put` of its
entry succeeds. -/
def AddsOther (dwID : UInt32) (s : RaftServer) : ServingEvent → Prop
  | .handshake puts _ q => s.role = .Leader → s.proxyConnFd q.nodeid = none →
      q.nodeid ≠ dwID ∧ (puts.entry 0).ok = true
  | _ => True

instance decidableAddsOther (dwID : UInt32) (s : RaftServer) :
    (e : ServingEvent) → Decidable (s.AddsOther dwID e)
  | .handshake _ _ _ => inferInstanceAs (Decidable (_ → _ → _))
  | .accept _ _ => isTrue trivial
  | .close _ => isTrue trivial
  | .reply _ _ _ => isTrue trivial

/-! ## Steps -/

variable {s s' : RaftServer} {e : ServingEvent} {dwID : UInt32}

theorem serving_next_eq_some :
    serving.next s e = some s' ↔ s.canServe e = true ∧ s.serve e = .ok s' := by
  show (if s.canServe e then (s.serve e).toOption else none) = some s' ↔ _
  rw [Option.ite_none_right_eq_some, Except.toOption_eq_some]

/-- The proxies have the same keys, and the same ones of them are connected. -/
structure SameProxys (s s' : RaftServer) : Prop where
  found : ∀ x, (s'.proxys.find? x).isSome = (s.proxys.find? x).isSome
  connected : ∀ x, (s'.proxyConnFd x).isSome = (s.proxyConnFd x).isSome

theorem sameProxys_of_eq (h : s'.proxys = s.proxys) : s.SameProxys s' := by
  refine ⟨fun x => by rw [h], fun x => ?_⟩
  rw [proxyConnFd, h, proxyConnFd]

/-- A reply moves counters. -/
theorem sameProxys_countReply (s : RaftServer) (fd : ℕ) (r : AppendEntriesR) :
    s.SameProxys (s.countReply fd r) := by
  refine ⟨fun x => ?_, fun x => ?_⟩
  · rw [countReply_proxys]
    split_ifs
    · rw [Option.isSome_map]
    · rfl
  · rw [countReply_proxyConnFd]

/-- The proxy of a known node gets another connection. -/
theorem Retied.sameProxys {fd old : ℕ} {q : HandshakeQ} (h : s.Retied fd old q s')
    (hold : s.proxyConnFd q.nodeid = some old) : s.SameProxys s' := by
  obtain ⟨p, hp, _⟩ := proxyConnFd_eq_some.mp hold
  refine ⟨fun x => ?_, fun x => ?_⟩
  · rw [h.proxys]
    split_ifs with hx
    · rw [Option.isSome_map, hx]
    · rfl
  · rw [proxyConnFd, h.proxys]
    split_ifs with hx
    · rw [hp, hx, hold]
      rfl
    · rfl

/-- Everything one event can do to members and log: the leader welcomes a new node, or
neither changes. -/
theorem serving_cases (h : serving.next s e = some s') :
    (∃ puts fd q c, e = .handshake puts fd q ∧ s.role = .Leader ∧
      s.proxyConnFd q.nodeid = none ∧ s.Welcomed (puts.entry 0) fd c q s') ∨
    ((∀ puts fd q, e = .handshake puts fd q → s.role = .Leader →
        s.proxyConnFd q.nodeid ≠ none) ∧
      s'.entries = s.entries ∧ s'.entriesDB = s.entriesDB ∧ s.SameProxys s') := by
  obtain ⟨hcan, hok⟩ := serving_next_eq_some.mp h
  cases e with
  | accept fd addr =>
    obtain rfl := Except.ok.inj hok
    exact Or.inr ⟨fun _ _ _ he => (by cases he), rfl, rfl, sameProxys_of_eq rfl⟩
  | close fd =>
    obtain ⟨c, hc⟩ := Option.isSome_iff_exists.mp hcan
    rw [serve, offlineConn, hc] at hok
    obtain rfl := Except.ok.inj hok
    exact Or.inr ⟨fun _ _ _ he => (by cases he), rfl, rfl, sameProxys_of_eq rfl⟩
  | handshake puts fd q =>
    obtain ⟨⟨t, ms⟩, ht, hok⟩ := Except.bind_eq_ok.mp hok
    rw [Except.pure_eq_ok] at hok
    obtain rfl : t = s' := hok
    obtain ⟨c, hc⟩ := Option.isSome_iff_exists.mp hcan
    have heq : ∀ puts' fd' q', ServingEvent.handshake puts fd q = .handshake puts' fd' q' →
        q' = q := by
      rintro _ _ _ ⟨⟩
      rfl
    rcases handshakeQ_cases ht with ⟨hnone, _⟩ | ⟨hrole, rfl, _⟩ | ⟨hlead, ⟨old, hold, hret⟩, _⟩ |
      ⟨hlead, hnone, ⟨c', _, hwel⟩, _⟩
    · rw [hc] at hnone
      cases hnone
    · exact Or.inr ⟨fun _ _ _ _ hlead => absurd hlead hrole, rfl, rfl, sameProxys_of_eq rfl⟩
    · refine Or.inr ⟨fun _ _ _ he _ hnone => ?_, by rw [hret.frame], by rw [hret.frame],
        hret.sameProxys hold⟩
      rw [heq _ _ _ he, hold] at hnone
      cases hnone
    · exact Or.inl ⟨puts, fd, q, c', rfl, hlead, hnone, hwel⟩
  | reply puts fd r =>
    refine Or.inr ⟨fun _ _ _ he => (by cases he), ?_⟩
    rcases appendEntriesR_cases hok with ⟨_, rfl⟩ | ⟨_, b, hb⟩
    · exact ⟨rfl, rfl, sameProxys_of_eq rfl⟩
    · obtain ⟨k, rfl⟩ := changeCommitIndex_frame hb
      have hsame := sameProxys_countReply s fd r
      refine ⟨?_, ?_, hsame.found, hsame.connected⟩
      · rw [countReply_frame]
      · rw [countReply_frame]

/-! ### After a new node's handshake -/

section Welcomed

variable {put : PutResult} {fd : ℕ} {c : Conn} {q : HandshakeQ}

theorem Welcomed.found (h : s.Welcomed put fd c q s') (x : UInt32) :
    (s'.proxys.find? x).isSome ↔ x = q.nodeid ∨ (s.proxys.find? x).isSome := by
  rw [h.proxys]
  split_ifs with hx
  · simp [hx]
  · simp [hx]

theorem Welcomed.connected (h : s.Welcomed put fd c q s') (x : UInt32) :
    (s'.proxyConnFd x).isSome ↔ x = q.nodeid ∨ (s.proxyConnFd x).isSome := by
  rw [proxyConnFd, h.proxys]
  split_ifs with hx
  · simp [hx]
  · simp [hx, proxyConnFd]

/-- The ids in the log after the handshake: the node's own is added if the `Put` succeeded. -/
theorem Welcomed.cfgIds (h : s.Welcomed put fd c q s') :
    cfgIds s'.entries = cfgIds s.entries ++ if put.ok then [q.nodeid] else [] := by
  rw [h.entries, RaftServer.cfgIds, List.filter_append, List.map_append]
  split_ifs
  · rfl
  · rfl

end Welcomed

/-- Every proxy has been tied to a connection. -/
def Attached (s : RaftServer) : Prop :=
  ∀ x, (s.proxyConnFd x).isSome ↔ (s.proxys.find? x).isSome

theorem attached_next (h : s.Attached) (hn : serving.next s e = some s') : s'.Attached := by
  intro x
  rcases serving_cases hn with ⟨puts, fd, q, c, _, _, _, hwel⟩ | ⟨_, _, _, hsame⟩
  · rw [hwel.found, hwel.connected, h x]
  · rw [hsame.found, hsame.connected, h x]

theorem Attached.find?_eq_none (h : s.Attached) {x : UInt32} (hx : s.proxyConnFd x = none) :
    s.proxys.find? x = none := by
  rw [← Option.not_isSome_iff_eq_none, ← h x, hx]
  simp

/-! ## Members and log -/

/-- The ids in the log are the leader's and those after it. -/
theorem Named.cfgIds (h : s.Named dwID) : cfgIds s.entries = dwID :: cfgIds s.entries.tail := by
  obtain ⟨e, hhead, htype, hid⟩ := h.own
  obtain ⟨es, hes⟩ := List.head?_eq_some_iff.mp hhead
  rw [hes, RaftServer.cfgIds, List.filter_cons_of_pos (by simp [htype]), List.map_cons, hid]
  rfl

/-- `ProxysNum` counts the other members. -/
theorem Agrees.size (h : s.Agrees dwID) :
    s.proxys.size = (RaftServer.cfgIds s.entries.tail).length := by
  have honce := h.once
  rw [h.cfgIds] at honce
  exact OrdMap.size_eq_length (List.nodup_cons.mp honce).2 h.keys

/-- An event that keeps proxies and log keeps what they name. -/
theorem Named.of_same (h : s.Named dwID) (hentries : s'.entries = s.entries)
    (hsame : s.SameProxys s') : s'.Named dwID :=
  ⟨by rw [hentries]; exact h.own, fun x => by rw [hsame.found, hentries]; exact h.keys x⟩

theorem Agrees.of_same (h : s.Agrees dwID) (hentries : s'.entries = s.entries)
    (hsame : s.SameProxys s') : s'.Agrees dwID := by
  refine ⟨h.toNamed.of_same hentries hsame, by rw [hentries]; exact h.once, ?_⟩
  rw [← Option.not_isSome_iff_eq_none, hsame.found, h.self]
  simp

section Welcomed

variable {put : PutResult} {fd : ℕ} {c : Conn} {q : HandshakeQ}

/-- The log names a new node if the `Put` has succeeded. -/
theorem Welcomed.named_iff (hwel : s.Welcomed put fd c q s') (h : s.Named dwID)
    (hnone : s.proxys.find? q.nodeid = none) : s'.Named dwID ↔ put.ok = true := by
  obtain ⟨e, hhead, htype, hid⟩ := h.own
  obtain ⟨es, hes⟩ := List.head?_eq_some_iff.mp hhead
  have htail : RaftServer.cfgIds s'.entries.tail =
      RaftServer.cfgIds s.entries.tail ++ if put.ok then [q.nodeid] else [] := by
    rw [hwel.entries, List.tail_append_of_ne_nil (by simp [hes]), RaftServer.cfgIds,
      List.filter_append, List.map_append]
    split_ifs
    · rfl
    · rfl
  constructor
  · intro h'
    by_contra hput
    -- the node has a proxy now, and no entry
    have hmem := (h'.keys q.nodeid).mp ((hwel.found _).mpr (Or.inl rfl))
    rw [htail, if_neg hput, List.append_nil, ← h.keys, hnone] at hmem
    cases hmem
  · intro hput
    refine ⟨⟨e, ?_, htype, hid⟩, fun x => ?_⟩
    · rw [hwel.entries, hes]
      rfl
    · rw [hwel.found, h.keys, htail, if_pos hput, List.mem_append, List.mem_singleton, or_comm]

/-- Proxies and log still agree if besides the node is not the leader itself. -/
theorem Welcomed.agrees_iff (hwel : s.Welcomed put fd c q s') (h : s.Agrees dwID)
    (hnone : s.proxys.find? q.nodeid = none) :
    s'.Agrees dwID ↔ q.nodeid ≠ dwID ∧ put.ok = true := by
  have hnamed := hwel.named_iff h.toNamed hnone
  constructor
  · intro h'
    refine ⟨fun heq => ?_, hnamed.mp h'.toNamed⟩
    have hfound := (hwel.found dwID).mpr (Or.inl heq.symm)
    rw [h'.self] at hfound
    cases hfound
  · rintro ⟨hne, hput⟩
    refine ⟨hnamed.mpr hput, ?_, ?_⟩
    · rw [hwel.cfgIds, if_pos hput, List.nodup_append]
      refine ⟨h.once, List.nodup_singleton _, fun x hx y hy heq => ?_⟩
      -- every node that the log names is the leader or has a proxy
      rw [List.mem_singleton] at hy
      rw [heq, hy, h.cfgIds, List.mem_cons, ← h.keys, hnone] at hx
      rcases hx with hx | hx
      · exact hne hx
      · cases hx
    · rw [← Option.not_isSome_iff_eq_none, hwel.found, h.self]
      simp [Ne.symm hne]

end Welcomed

/-- **One event.** Proxies and log go on agreeing exactly if a new node is another one than
the leader, and its entry is stored. -/
theorem agrees_next_iff (hatt : s.Attached) (h : s.Agrees dwID)
    (hn : serving.next s e = some s') : s'.Agrees dwID ↔ s.AddsOther dwID e := by
  rcases serving_cases hn with ⟨puts, fd, q, c, rfl, hlead, hnone, hwel⟩ |
    ⟨hknown, hentries, _, hsame⟩
  · rw [hwel.agrees_iff h (hatt.find?_eq_none hnone)]
    exact ⟨fun hadds _ _ => hadds, fun hadds => hadds hlead hnone⟩
  · refine iff_of_true (h.of_same hentries hsame) ?_
    cases e with
    | handshake puts fd q => exact fun hlead hnone => absurd hnone (hknown puts fd q rfl hlead)
    | accept | close | reply => trivial

/-! ## Runs -/

/-- What `start` has launched, before the first event. -/
theorem attached_of_start {put : PutResult} {disk : Disk} {iRaftPort iNodeID : Int32}
    (h : launchStart put disk iRaftPort iNodeID = .ok s) : s.Attached := by
  obtain ⟨db, happ, _⟩ := appendCfgLog_frame put
    ({ RaftServer.new disk with role := .Leader } : RaftServer) startHost iRaftPort iNodeID
  rw [launchStart_eq_ok h, happ]
  exact fun x => Iff.rfl

/-- The leader has its own entry if the first `Put` has succeeded. -/
theorem agrees_of_start_iff {put : PutResult} {disk : Disk} {iRaftPort iNodeID : Int32}
    (h : launchStart put disk iRaftPort iNodeID = .ok s) :
    s.Agrees iNodeID.toUInt32 ↔ put.ok = true := by
  have hs := launchStart_eq_ok h
  cases hput : put.ok with
  | false =>
    rw [appendCfgLog_of_refused hput] at hs
    refine iff_of_false (fun hagrees => ?_) (by simp)
    obtain ⟨e, he, _⟩ := hagrees.own
    rw [hs] at he
    cases he
  | true =>
    rw [appendCfgLog_of_ok hput] at hs
    refine iff_of_true ?_ rfl
    rw [hs]
    exact ⟨⟨⟨_, rfl, rfl, rfl⟩, fun x => iff_of_false Bool.false_ne_true List.not_mem_nil⟩,
      List.nodup_singleton _, rfl⟩

/-- **Members and log.** In a run of a leader launched on empty directories proxies and log
agree all the time, and `ProxysNum` counts the other members, if and only if the leader's own
entry was stored, every node that is new to it has another id than its own, and the entries
of these nodes are stored. -/
theorem members_agree_iff {put : PutResult} {iRaftPort iNodeID : Int32} {s t : RaftServer}
    {es : List ServingEvent}
    (hstart : launchStart put ⟨none, .empty⟩ iRaftPort iNodeID = .ok s)
    (hrun : serving.run s es = some t) :
    (∀ bs u, bs <+: es → serving.run s bs = some u → u.Agrees iNodeID.toUInt32 ∧
      u.proxys.size = (cfgIds u.entries.tail).length) ↔
    put.ok = true ∧ serving.Allowed (AddsOther iNodeID.toUInt32) s es := by
  have hfirst := agrees_of_start_iff hstart
  have hiff : s.Agrees iNodeID.toUInt32 →
      (serving.Allowed (AddsOther iNodeID.toUInt32) s es ↔
        ∀ bs u, bs <+: es → serving.run s bs = some u → u.Agrees iNodeID.toUInt32) := fun hs =>
    System.allowed_iff_always (K := Attached)
      (fun s e s' hatt h hn => ⟨agrees_next_iff hatt h hn, fun _ => attached_next hatt hn⟩)
      es (attached_of_start hstart) hs hrun
  constructor
  · intro hall
    have hs := (hall [] s (List.nil_prefix) rfl).1
    exact ⟨hfirst.mp hs, (hiff hs).mpr fun bs u hbs hu => (hall bs u hbs hu).1⟩
  · rintro ⟨hput, hallowed⟩ bs u hbs hu
    have hagrees := (hiff (hfirst.mpr hput)).mp hallowed bs u hbs hu
    exact ⟨hagrees, hagrees.size⟩

/-- Node 1 has been started, and its entry stored. -/
def alone : RaftServer :=
  ({ RaftServer.new ⟨none, .empty⟩ with role := .Leader } : RaftServer).appendCfgLog ⟨true, []⟩
    startHost 7777 1

theorem launchStart_alone : launchStart ⟨true, []⟩ ⟨none, .empty⟩ 7777 1 = .ok alone := rfl

/-- Node `x` connects as connection `fd` and presents itself. -/
def comes (puts : Puts) (fd : ℕ) (x : UInt32) : List ServingEvent :=
  [.accept fd [], .handshake puts fd ⟨7778, x⟩]

/-- Two nodes join. -/
theorem members_agree_two : ∃ t : RaftServer, t.Agrees 1 ∧ t.proxys.size = 2 := by
  have hrun : ((serving.run alone (comes .allOk 5 2 ++ comes .allOk 6 3)).any
      fun t : RaftServer => decide (t.proxys.size = 2)) = true := by decide +kernel
  obtain ⟨t, ht, hsize⟩ := (Option.any_eq_true _ _).mp hrun
  have hall := (members_agree_iff launchStart_alone ht).mpr ⟨rfl, by decide +kernel⟩
  exact ⟨t, (hall _ t (List.prefix_refl _) ht).1, of_decide_eq_true hsize⟩

/-- The `Put` for the entry of node 2 fails: it is counted, and the log does not name it. -/
theorem members_disagree : ¬ ∀ put iRaftPort iNodeID s,
    launchStart put ⟨none, .empty⟩ iRaftPort iNodeID = .ok s →
      ∀ es t, serving.run s es = some t → t.Agrees iNodeID.toUInt32 := by
  intro hall
  have hrun : ((serving.run alone (comes ⟨true, fun _ => ⟨false, []⟩⟩ 5 2)).any
      fun t : RaftServer => (t.proxys.find? 2).isSome && decide (t.entries.length = 1)) = true := by
    decide +kernel
  obtain ⟨t, ht, htest⟩ := (Option.any_eq_true _ _).mp hrun
  rw [Bool.and_eq_true, decide_eq_true_iff] at htest
  obtain ⟨hfound, hlen⟩ := htest
  have hmem := ((hall _ _ _ _ launchStart_alone _ t ht).keys 2).mp hfound
  obtain ⟨e, he⟩ := List.length_eq_one_iff.mp hlen
  rw [he] at hmem
  cases hmem

end RaftServer
end NanoRaft
