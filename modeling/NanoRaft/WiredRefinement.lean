import NanoRaft.Lib.Simulation
import NanoRaft.Wired

/-!
# The bytes carry the messages

Every run of the cluster with its buffers is a run of `Cluster`: a callback that handles `k`
messages is `k` deliveries, and one that only moves bytes is none (`wired_refines`). So what holds
of all runs of `Cluster` holds of the processes when every message is serialized, queued in a
buffer of 1440 bytes, sent in any pieces, received in any chunks, cut into frames and parsed.
-/

namespace NanoRaft

/-- `VerifyUtf8String` takes text without bytes above 127. -/
def Protobuf.TakesText (lib : Protobuf) : Prop :=
  ∀ bs : Bytes, Wired.IsText bs → lib.validUtf8 bs = true

namespace Wired

variable {lib : Protobuf} {w w' : Wired} {i j : ℕ} {p p' : WiredPeer} {P : Peer} {c : Cluster}
  {iSended : ℕ → Int32} {ms : Sends}

/-! ## Peers after an operation -/

theorem getElem?_setPeer (hp : w.peers[i]? = some p) (p' : WiredPeer) (j : ℕ) :
    (w.setPeer i p').peers[j]? = if j = i then some p' else w.peers[j]? := by
  have hlt : i < w.peers.length := (List.getElem?_eq_some_iff.mp hp).1
  show (w.peers.set i p')[j]? = _
  rw [List.getElem?_set]
  by_cases hj : j = i
  · rw [if_pos hj, if_pos hj.symm, if_pos hlt]
  · rw [if_neg hj, if_neg fun h => hj h.symm]

theorem fits_iff : w.Fits ↔ ∀ (j : ℕ) (p : WiredPeer), w.peers[j]? = some p → p.Fits := by
  constructor
  · intro h j p hp
    exact h p (List.mem_of_getElem? hp)
  · intro h p hp
    obtain ⟨j, hj⟩ := List.mem_iff_getElem?.mp hp
    exact h j p hj

theorem sentTo_cons (fd : ℕ) (m : Message) (ms : Sends) (j : ℕ) :
    Cluster.sentTo ((fd, m) :: ms) j =
      if fd = j then m :: Cluster.sentTo ms j else Cluster.sentTo ms j := by
  unfold Cluster.sentTo
  by_cases h : fd = j
  · rw [if_pos h, List.filter_cons_of_pos (by simpa using h), List.map_cons]
  · rw [if_neg h, List.filter_cons_of_neg (by simpa using h)]

/-- What the start node sends is queued connection by connection. -/
theorem send_spec (h : w.send iSended ms = some w') :
    w'.leader = w.leader ∧ (∀ j : ℕ, w.peers[j]? = none → w'.peers[j]? = none) ∧
      ∀ (j : ℕ) (p : WiredPeer), w.peers[j]? = some p → ∃ iSended' toPeer,
        p.toPeer.pushAll iSended' (Cluster.sentTo ms j) = some toPeer ∧
          w'.peers[j]? = some { p with toPeer := toPeer } := by
  induction ms generalizing w iSended with
  | nil =>
    obtain rfl : w = w' := Option.some.inj h
    exact ⟨rfl, fun _ hj => hj, fun j p hp => ⟨iSended, p.toPeer, rfl, hp⟩⟩
  | cons x ms ih =>
    obtain ⟨fd, m⟩ := x
    obtain ⟨w₁, h₁, h⟩ := Option.bind_eq_some_iff.mp h
    obtain ⟨hlead, hnone, hsome⟩ := ih h
    unfold push at h₁
    cases hfd : w.peers[fd]? with
    | none =>
      -- nobody is there to be sent to
      rw [hfd] at h₁
      obtain rfl := Option.some.inj h₁
      refine ⟨hlead, hnone, fun j p hp => ?_⟩
      have hne : fd ≠ j := by
        intro heq
        rw [heq, hp] at hfd
        cases hfd
      rw [sentTo_cons, if_neg hne]
      exact hsome j p hp
    | some p₀ =>
      rw [hfd] at h₁
      obtain ⟨t, ht, rfl⟩ := Option.map_eq_some_iff.mp h₁
      have hset := getElem?_setPeer hfd { p₀ with toPeer := t }
      refine ⟨hlead, fun j hj => ?_, fun j p hp => ?_⟩
      · apply hnone
        rw [hset, if_neg]
        · exact hj
        · intro heq
          rw [heq, hfd] at hj
          cases hj
      · rw [sentTo_cons]
        by_cases heq : fd = j
        · -- the message is the first one on its connection
          rw [← heq, hfd] at hp
          obtain rfl := Option.some.inj hp
          obtain ⟨iSended', t', ht', hj⟩ := hsome j { p₀ with toPeer := t } (by
            rw [hset, if_pos heq.symm])
          rw [if_pos heq]
          refine ⟨fun k => Nat.casesOn k (iSended 0) iSended', t', ?_, hj⟩
          show (p₀.toPeer.push m (iSended 0)).bind _ = _
          rw [ht, Option.bind_some]
          exact ht'
        · rw [if_neg heq]
          apply hsome
          rw [hset, if_neg fun hji => heq hji.symm]
          exact hp

/-! ## The relation -/

/-- A peer stands for one of `Cluster`: the same process, and the same messages on the way. -/
structure PeerStands (lib : Protobuf) (p : WiredPeer) (P : Peer) : Prop where
  server : p.server = P.server
  toPeer : p.toPeer.Carries lib P.toPeer
  toLeader : p.toLeader.Carries lib P.toLeader

/-- The processes are the same, and the bytes on the way are the messages on the way. -/
structure Stands (lib : Protobuf) (w : Wired) (c : Cluster) : Prop where
  leader : w.leader = c.leader
  peers : ∀ j : ℕ, Option.Rel (PeerStands lib) w.peers[j]? c.peers[j]?

theorem Stands.peer (h : Stands lib w c) (hp : w.peers[i]? = some p) :
    ∃ P, c.peers[i]? = some P ∧ PeerStands lib p P := by
  have hrel := h.peers i
  rw [hp] at hrel
  cases hP : c.peers[i]? with
  | none =>
    rw [hP] at hrel
    cases hrel
  | some P =>
    rw [hP] at hrel
    cases hrel with
    | some h => exact ⟨P, rfl, h⟩

theorem Stands.wiredPeer (h : Stands lib w c) (hP : c.peers[i]? = some P) :
    ∃ p, w.peers[i]? = some p ∧ PeerStands lib p P := by
  have hrel := h.peers i
  rw [hP] at hrel
  cases hp : w.peers[i]? with
  | none =>
    rw [hp] at hrel
    cases hrel
  | some p =>
    rw [hp] at hrel
    cases hrel with
    | some h => exact ⟨p, rfl, h⟩

/-- One peer is replaced on both sides. -/
theorem Stands.replace {c' : Cluster} {P' : Peer} (h : Stands lib w c)
    (hp : w.peers[i]? = some p) (hlead : c'.leader = c.leader)
    (hpeers : ∀ j, c'.peers[j]? = if j = i then some P' else c.peers[j]?)
    (hstands : PeerStands lib p' P') : Stands lib (w.setPeer i p') c' := by
  refine ⟨h.leader.trans hlead.symm, fun j => ?_⟩
  rw [getElem?_setPeer hp, hpeers]
  by_cases hj : j = i
  · rw [if_pos hj, if_pos hj]
    exact .some hstands
  · rw [if_neg hj, if_neg hj]
    exact h.peers j

/-- Nothing is replaced in `Cluster`: the bytes have moved, and are the same messages. -/
theorem Stands.moved (h : Stands lib w c) (hp : w.peers[i]? = some p)
    (hP : c.peers[i]? = some P) (hstands : PeerStands lib p' P) :
    Stands lib (w.setPeer i p') c := by
  apply h.replace hp rfl _ hstands
  intro j
  split_ifs with hj
  · rw [hj, hP]
  · rfl

/-- What the start node sends is on the way on both sides. -/
theorem Stands.send (h : Stands lib w c) (hms : ∀ k m, (k, m) ∈ ms → m.ValidHosts lib)
    (hw : w.send iSended ms = some w') (hfits : w'.Fits) : Stands lib w' (c.send ms) := by
  obtain ⟨hlead, hnone, hsome⟩ := send_spec hw
  refine ⟨hlead.trans h.leader, fun j => ?_⟩
  rw [Cluster.getElem?_send]
  have hrel := h.peers j
  cases hp : w.peers[j]? with
  | none =>
    rw [hp] at hrel
    rw [hnone j hp]
    cases hP : c.peers[j]? with
    | none => exact .none
    | some P =>
      rw [hP] at hrel
      cases hrel
  | some p =>
    obtain ⟨P, hP, hstands⟩ := h.peer hp
    obtain ⟨iSended', toPeer, hpush, hp'⟩ := hsome j p hp
    rw [hp', hP]
    apply Option.Rel.some
    refine ⟨hstands.server, ?_, hstands.toLeader⟩
    apply hstands.toPeer.pushAll _ hpush (fits_iff.mp hfits j _ hp').1
    exact fun m hm => hms j m (Cluster.mem_sentTo.mp hm)

theorem fits_of_send (h : w.send iSended ms = some w') (hfits : w'.Fits) : w.Fits := by
  obtain ⟨_, _, hsome⟩ := send_spec h
  rw [fits_iff] at hfits ⊢
  intro j p hp
  obtain ⟨_, toPeer, hpush, hp'⟩ := hsome j p hp
  obtain ⟨hto, hfrom⟩ := hfits j _ hp'
  exact ⟨Pipe.fits_of_pushAll hpush hto, hfrom⟩

/-! ## Handling a message -/

/-- Processes with a text for an address. -/
def Texts : Launches := fun host _ _ => IsText host

/-- The runs of `Cluster` that are matched. -/
def Told (c : Cluster) (e : Event) : Prop := Cluster.Room c e ∧ Cluster.Joins Texts c e

theorem isText_startHost : IsText RaftServer.startHost := by
  decide +kernel

theorem sourced_of_told (h : Cluster.system.Reachable Told c) : Cluster.Sourced Texts c := by
  apply h.invariant (I := Cluster.Sourced Texts)
  · intro c hinit
    apply Cluster.sourced_launched hinit
    intro e he
    rw [(Cluster.names_launched hinit e he).2.2]
    exact isText_startHost
  · exact fun c e c' _ hs hC hn => hs.next hC.2 hn

theorem wf_of_told (h : Cluster.system.Reachable Told c) : Cluster.Wf c :=
  Cluster.wf_of_reachable (fun _ _ hC => hC.1) h

/-- A message without a handshake in it, from a server that knows texts, is taken by the parser. -/
theorem validHosts_of_names (hlib : lib.TakesText) {m : Message} (h : m.Names Texts) :
    m.ValidHosts lib := by
  cases m with
  | appendentries_q q => exact fun e he => Or.inr (hlib _ (h e he).known)
  | handshake_q q => trivial
  | handshake_r r => trivial
  | appendentries_r r => trivial

/-- A frame is handled as the message it was made of. -/
theorem procFrame_frame {m : Message} (h : m.Accepted lib) (puts : Puts) (s : RaftServer)
    (fd : ℕ) : s.procFrame lib puts fd m.frame = s.proc puts fd m := by
  have hid : Mod.messageType m.frame.id = some m.type := m.messageType_id
  simp only [RaftServer.procFrame, hid]
  show s.procObject puts fd m.type (MessageType.parseFromArray lib m.type m.serialize).2 = _
  rw [Message.parse_serialize h, Message.procObject_object]

/-! ## The loop of a peer -/

variable {fuel : ℕ} {reacts : ℕ → Reaction}

/-- One iteration: it returns, or the first message on the way is handled. -/
theorem peerIteration (hp : PeerStands lib p P)
    (h : p.handleArrivedMsg lib (fuel + 1) reacts = some p') :
    p' = p ∨ ∃ m rest s ms toLeader, P.toPeer = m :: rest ∧
      p.server.proc (reacts 0).puts 0 m = .ok (s, ms) ∧
      p.toLeader.pushAll (reacts 0).iSended (Cluster.sentTo ms 0) = some toLeader ∧
      ({ p.toPeer with inn := p.toPeer.inn.takeOff } : Pipe).Carries lib rest ∧
      WiredPeer.handleArrivedMsg lib fuel (fun k => reacts (k + 1))
        ⟨s, { p.toPeer with inn := p.toPeer.inn.takeOff }, toLeader⟩ = some p' := by
  rw [WiredPeer.handleArrivedMsg] at h
  rcases hp.toPeer.arrivedMsg with ⟨hret, _⟩ | ⟨m, rest, hms, hdis, hcarries, _⟩
  · rw [hret] at h
    exact Or.inl (Option.some.inj h).symm
  · have hacc : m.Accepted lib := hp.toPeer.accepted (by rw [hms]; exact List.mem_cons_self)
    rw [hdis] at h
    simp only [procFrame_frame hacc] at h
    cases hproc : p.server.proc (reacts 0).puts 0 m with
    | error f =>
      rw [hproc] at h
      cases h
    | ok r =>
      obtain ⟨s, ms⟩ := r
      rw [hproc] at h
      obtain ⟨toLeader, hpush, h⟩ := Option.bind_eq_some_iff.mp h
      exact Or.inr ⟨m, rest, s, ms, toLeader, hms, hproc, hpush, hcarries, h⟩

/-- No iteration makes good an overrun buffer. -/
theorem fits_of_peerLoop (h : p.handleArrivedMsg lib fuel reacts = some p') (hfits : p'.Fits) :
    p.Fits := by
  induction fuel generalizing p reacts with
  | zero => cases h
  | succ fuel ih =>
    rw [WiredPeer.handleArrivedMsg] at h
    split at h
    · rwa [Option.some.inj h]
    · cases h
    · split at h
      · cases h
      · obtain ⟨toLeader, hpush, h⟩ := Option.bind_eq_some_iff.mp h
        have hrest := ih h
        exact ⟨hrest.1, Pipe.fits_of_pushAll hpush hrest.2⟩

/-- What is handled of a peer's messages is handled one by one in `Cluster`. -/
theorem peerLoop_path (hlib : lib.TakesText) (hreach : Cluster.system.Reachable Told c)
    (hP : c.peers[i]? = some P) (hp : PeerStands lib p P)
    (h : p.handleArrivedMsg lib fuel reacts = some p') (hfits : p'.Fits) :
    ∃ bs c' P', Cluster.system.Path Told c bs c' ∧ c'.leader = c.leader ∧
      (∀ j, c'.peers[j]? = if j = i then some P' else c.peers[j]?) ∧ PeerStands lib p' P' := by
  induction fuel generalizing p P c reacts with
  | zero => cases h
  | succ fuel ih =>
    rcases peerIteration hp h with rfl | ⟨m, rest, s, ms, toLeader, hms, hproc, hpush, hcarries, h⟩
    · refine ⟨[], c, P, System.Path.nil _ _ _, rfl, fun j => ?_, hp⟩
      split_ifs with hj
      · rw [hj, hP]
      · rfl
    · -- the answer names nobody but the processes that are known
      have hsourced := sourced_of_told hreach
      have hm : m.Names Texts :=
        hsourced.toPeer i P hP m (by rw [hms]; exact List.mem_cons_self)
      rw [hp.server] at hproc
      obtain ⟨_, hnames⟩ := RaftServer.proc_names hproc (hsourced.peers i P hP) (Or.inl hm)
      have hvalid : ∀ m' ∈ Cluster.sentTo ms 0, m'.ValidHosts lib := fun m' hm' =>
        validHosts_of_names hlib (hnames 0 m' (Cluster.mem_sentTo.mp hm'))
      have htoLeader := hp.toLeader.pushAll hvalid hpush (fits_of_peerLoop h hfits).2
      have htold : Told c (.toPeer i (reacts 0).puts) := ⟨trivial, trivial⟩
      have hn := Cluster.next_toPeer_of hP hms hproc
      have hset := Cluster.getElem?_setPeer hP ⟨s, rest, P.toLeader ++ Cluster.sentTo ms 0⟩
      obtain ⟨bs, c', P', hpath, hlead, hpeers, hstands⟩ := ih (hreach.step htold hn)
        (by rw [hset, if_pos rfl]) ⟨rfl, hcarries, htoLeader⟩ h
      refine ⟨_, c', P', System.Path.cons htold hn hpath, hlead, fun j => ?_, hstands⟩
      rw [hpeers, hset]
      split_ifs with hj
      · rfl
      · rfl

/-! ## The loop of the start node -/

/-- One iteration on connection `i`. -/
theorem leaderIteration (hw : Stands lib w c)
    (h : w.handleArrivedMsg lib i (fuel + 1) reacts = some w') :
    w' = w ∨ ∃ p P m rest s ms w₁, w.peers[i]? = some p ∧ c.peers[i]? = some P ∧
      PeerStands lib p P ∧ P.toLeader = m :: rest ∧
      c.leader.proc (reacts 0).puts i m = .ok (s, ms) ∧
      ({ p.toLeader with inn := p.toLeader.inn.takeOff } : Pipe).Carries lib rest ∧
      (({ w with leader := s } : Wired).setPeer i { p with
        toLeader := { p.toLeader with inn := p.toLeader.inn.takeOff } }).send
          (reacts 0).iSended ms = some w₁ ∧
      w₁.handleArrivedMsg lib i fuel (fun k => reacts (k + 1)) = some w' := by
  rw [handleArrivedMsg] at h
  cases hpeer : w.peers[i]? with
  | none =>
    rw [hpeer] at h
    cases h
  | some p =>
    obtain ⟨P, hP, hp⟩ := hw.peer hpeer
    rw [hpeer] at h
    simp only at h
    rcases hp.toLeader.arrivedMsg with ⟨hret, _⟩ | ⟨m, rest, hms, hdis, hcarries, _⟩
    · rw [hret] at h
      exact Or.inl (Option.some.inj h).symm
    · have hacc : m.Accepted lib := hp.toLeader.accepted (by rw [hms]; exact List.mem_cons_self)
      rw [hdis] at h
      simp only [procFrame_frame hacc] at h
      rw [← hw.leader]
      cases hproc : w.leader.proc (reacts 0).puts i m with
      | error f =>
        rw [hproc] at h
        cases h
      | ok r =>
        obtain ⟨s, ms⟩ := r
        rw [hproc] at h
        obtain ⟨w₁, hsend, h⟩ := Option.bind_eq_some_iff.mp h
        exact Or.inr ⟨p, P, m, rest, s, ms, w₁, rfl, hP, hp, hms, hproc, hcarries, hsend, h⟩

theorem fits_setPeer (hp : w.peers[i]? = some p) (hfits : (w.setPeer i p').Fits)
    (h : p'.Fits → p.Fits) : w.Fits := by
  rw [fits_iff] at hfits ⊢
  intro j q hq
  have hset := getElem?_setPeer hp p' j
  by_cases hj : j = i
  · rw [if_pos hj] at hset
    rw [hj, hp] at hq
    obtain rfl := Option.some.inj hq
    exact h (hfits j p' hset)
  · rw [if_neg hj, hq] at hset
    exact hfits j q hset

theorem fits_of_leaderLoop (h : w.handleArrivedMsg lib i fuel reacts = some w')
    (hfits : w'.Fits) : w.Fits := by
  induction fuel generalizing w reacts with
  | zero => cases h
  | succ fuel ih =>
    rw [handleArrivedMsg] at h
    split at h
    · cases h
    · next p hp =>
      split at h
      · rwa [Option.some.inj h]
      · cases h
      · split at h
        · cases h
        · next s ms _ =>
          obtain ⟨w₁, hsend, h⟩ := Option.bind_eq_some_iff.mp h
          have hset := fits_of_send hsend (ih h)
          exact fits_setPeer (w := { w with leader := s }) hp hset id

/-- After a message of connection `i` there are only replies on it, if anything, and the start node
goes on listening for them. -/
theorem listens_after (hwf : Cluster.Wf c) {puts : Puts} {c' : Cluster}
    (hn : c.next (.toLeader i puts) = some c') : c'.RoomFor i ∧
      ∀ P', c'.peers[i]? = some P' → P'.toLeader ≠ [] → c'.listens i = true := by
  obtain ⟨P, m, rest, ms, cn, hP, hm, hcn, hread, _, hhand, hrest, hpeers⟩ :=
    Cluster.leaderStep_of_next hwf hn
  have hlater : ∀ P', c'.peers[i]? = some P' → P'.toLeader = rest := by
    intro P' hP'
    rw [hpeers, if_pos rfl] at hP'
    rw [← Option.some.inj hP']
  constructor
  · intro P' hP' m' hm'
    rw [hlater P' hP'] at hm'
    obtain ⟨r, rfl⟩ := hrest m' (List.mem_of_head? hm')
    trivial
  · intro P' hP' hne
    rw [hlater P' hP'] at hne
    have hreply : ∃ r, m = .appendentries_r r := by
      rcases (hwf.peers i P hP).toLeader with hjoin | hreplies
      · obtain ⟨q, hq⟩ := hjoin.toLeader
        rw [hm] at hq
        exact absurd (List.cons.inj hq).2 hne
      · exact hreplies m (by rw [hm]; exact List.mem_cons_self)
    obtain ⟨r, hr⟩ := hreply
    obtain ⟨P₀, m₀, rest₀, ms₀, hP₀, hm₀, _, hproc, _⟩ := Cluster.next_toLeader hn
    rw [hP] at hP₀
    obtain rfl := Option.some.inj hP₀
    rw [hm] at hm₀
    obtain ⟨rfl, _⟩ := List.cons.inj hm₀
    rw [hr] at hproc
    have hconns := (RaftServer.appendEntriesR_entries (RaftServer.proc_appendEntriesR hproc).1).2
    exact Cluster.listens_iff.mpr ⟨cn, by rw [hconns, hcn], hread⟩

/-- What the start node handles of a connection it handles one by one in `Cluster`. After a
handshake there is nothing more on the connection, so that it does not matter that the loop goes
on with a channel that may have been disabled. -/
theorem leaderLoop_path (hlib : lib.TakesText) (hreach : Cluster.system.Reachable Told c)
    (hw : Stands lib w c) (hroom : c.RoomFor i)
    (hlistens : ∀ P, c.peers[i]? = some P → P.toLeader ≠ [] → c.listens i = true)
    (h : w.handleArrivedMsg lib i fuel reacts = some w') (hfits : w'.Fits) :
    ∃ bs c', Cluster.system.Path Told c bs c' ∧ Stands lib w' c' := by
  induction fuel generalizing w c reacts with
  | zero => cases h
  | succ fuel ih =>
    rcases leaderIteration hw h with rfl | ⟨p, P, m, rest, s, ms, w₁, hpeer, hP, hp, hms, hproc,
      hcarries, hsend, h⟩
    · exact ⟨[], c, System.Path.nil _ _ _, hw⟩
    · have hl : c.listens i = true := hlistens P hP (by rw [hms]; exact List.cons_ne_nil m rest)
      have hn := Cluster.next_toLeader_of hP hms hl hproc
      have htold : Told c (.toLeader i (reacts 0).puts) := ⟨hroom, trivial⟩
      have hsourced := sourced_of_told hreach
      obtain ⟨_, hnames⟩ := RaftServer.proc_names hproc hsourced.leader
        (hsourced.toLeader i P hP m (by rw [hms]; exact List.mem_cons_self))
      -- the same message taken off, and the same messages sent
      have hset : Stands lib
          (({ w with leader := s } : Wired).setPeer i { p with
            toLeader := { p.toLeader with inn := p.toLeader.inn.takeOff } })
          (({ c with leader := s } : Cluster).setPeer i { P with toLeader := rest }) :=
        Stands.replace (w := { w with leader := s }) (c := { c with leader := s })
          ⟨rfl, hw.peers⟩ hpeer rfl (Cluster.getElem?_setPeer hP _)
          ⟨hp.server, hp.toPeer, hcarries⟩
      have hw₁ := hset.send (fun k m' hm' => validHosts_of_names hlib (hnames k m' hm')) hsend
        (fits_of_leaderLoop h hfits)
      obtain ⟨hroom', hlistens'⟩ := listens_after (wf_of_told hreach) hn
      obtain ⟨bs, c', hpath, hstands⟩ := ih (hreach.step htold hn) hw₁ hroom' hlistens' h
      exact ⟨_, c', System.Path.cons htold hn hpath, hstands⟩

/-! ## Runs -/

theorem stands_launched (h : Launched w) : Cluster.Launched ⟨w.leader, []⟩ ∧
    Stands lib w ⟨w.leader, []⟩ := by
  obtain ⟨put, disk, port, id, hstart, hpeers⟩ := h
  refine ⟨⟨put, disk, port, id, hstart, rfl⟩, rfl, fun j => ?_⟩
  rw [hpeers]
  exact .none

theorem Stands.length (h : Stands lib w c) : w.peers.length = c.peers.length := by
  have hnone : ∀ j : ℕ, w.peers[j]? = none ↔ c.peers[j]? = none := by
    intro j
    have hrel := h.peers j
    cases hp : w.peers[j]? with
    | none =>
      refine iff_of_true rfl ?_
      cases hP : c.peers[j]? with
      | none => rfl
      | some P =>
        rw [hp, hP] at hrel
        cases hrel
    | some p =>
      obtain ⟨P, hP, _⟩ := h.peer hp
      rw [hP]
      exact iff_of_false (Option.some_ne_none p) (Option.some_ne_none P)
  apply le_antisymm
  · exact List.getElem?_eq_none_iff.mp ((hnone _).mpr (List.getElem?_eq_none (le_refl _)))
  · exact List.getElem?_eq_none_iff.mp ((hnone _).mp (List.getElem?_eq_none (le_refl _)))

/-- A process that has joined has sent its handshake. -/
theorem step_join (hw : Stands lib w c) {disk : Disk} {addr : Bytes} {raftPort nodeID : UInt32}
    {k : Int32} (h : w.next lib (.join disk addr raftPort nodeID k) = some w') (hfits : w'.Fits) :
    ∃ c', c.next (.join disk addr raftPort nodeID) = some c' ∧ Stands lib w' c' := by
  obtain ⟨toLeader, hpush, h⟩ := Option.bind_eq_some_iff.mp h
  obtain rfl := Option.some.inj h
  have hnew : PeerStands lib ⟨.launchJoin disk 0 RaftServer.startHost raftPort, Pipe.new, toLeader⟩
      ⟨.launchJoin disk 0 RaftServer.startHost raftPort, [],
        [.handshake_q ⟨raftPort, nodeID⟩]⟩ := by
    refine ⟨rfl, Pipe.carries_new lib, ?_⟩
    have hlast := hfits _ (List.mem_append_right w.peers (List.mem_singleton.mpr rfl))
    exact (Pipe.carries_new lib).push trivial hpush hlast.2
  have hlen := hw.length
  refine ⟨_, rfl, ?_, fun j => ?_⟩
  · show w.leader.accept w.peers.length addr = c.leader.accept c.peers.length addr
    rw [hw.leader, hlen]
  · by_cases hj : j < w.peers.length
    · rw [List.getElem?_append_left hj, List.getElem?_append_left (by omega)]
      exact hw.peers j
    · rw [List.getElem?_append_right (by omega), List.getElem?_append_right (by omega), hlen]
      cases j - c.peers.length with
      | zero => exact .some hnew
      | succ k => exact .none

theorem listens_eq (hw : Stands lib w c) (i : ℕ) : w.listens i = c.listens i := by
  cases hcn : c.leader.conns.find? i with
  | none => simp only [listens, Cluster.listens, hw.leader, hcn]
  | some cn => simp only [listens, Cluster.listens, hw.leader, hcn]

/-- A handshake comes first on its connection. -/
theorem roomFor_of_roomOn (hwf : Cluster.Wf c) (h : RoomOn c.leader i) : c.RoomFor i := by
  intro P hP m hm
  cases m with
  | handshake_q q =>
    intro _
    apply h
    rcases (hwf.peers i P hP).toLeader with hjoin | hreplies
    · exact hjoin.untied
    · obtain ⟨r, hr⟩ := hreplies _ (List.mem_of_head? hm)
      cases hr
  | handshake_r | appendentries_q | appendentries_r => trivial

theorem step_leaderRecv (hlib : lib.TakesText) (hreach : Cluster.system.Reachable Told c)
    (hw : Stands lib w c) {n : ℕ} (hroom : RoomOn w.leader i)
    (h : w.next lib (.leaderRecv i n reacts) = some w') (hfits : w'.Fits) :
    ∃ bs c', Cluster.system.Path Told c bs c' ∧ Stands lib w' c' := by
  simp only [next] at h
  split at h
  · cases h
  · next p hp =>
    split at h
    · next hl =>
      obtain ⟨toLeader, hrecv, h⟩ := Option.bind_eq_some_iff.mp h
      obtain ⟨P, hP, hstands⟩ := hw.peer hp
      have hset : Stands lib (w.setPeer i { p with toLeader := toLeader }) c := by
        apply hw.moved hp hP
        refine ⟨hstands.server, hstands.toPeer, hstands.toLeader.recv hrecv ?_⟩
        have hloop := fits_of_leaderLoop h hfits
        exact (fits_iff.mp hloop i _ (by rw [getElem?_setPeer hp, if_pos rfl])).2
      have hroom' : c.RoomFor i := by
        apply roomFor_of_roomOn (wf_of_told hreach)
        rwa [← hw.leader]
      apply leaderLoop_path hlib hreach hset hroom' _ h hfits
      intro _ _ _
      rw [← listens_eq hw]
      exact hl
    · cases h

theorem step_peerRecv (hlib : lib.TakesText) (hreach : Cluster.system.Reachable Told c)
    (hw : Stands lib w c) {n : ℕ} (h : w.next lib (.peerRecv i n reacts) = some w')
    (hfits : w'.Fits) : ∃ bs c', Cluster.system.Path Told c bs c' ∧ Stands lib w' c' := by
  simp only [next] at h
  split at h
  · cases h
  · next p hp =>
    obtain ⟨toPeer, hrecv, h⟩ := Option.bind_eq_some_iff.mp h
    obtain ⟨p', hloop, h⟩ := Option.bind_eq_some_iff.mp h
    obtain rfl := Option.some.inj h
    obtain ⟨P, hP, hstands⟩ := hw.peer hp
    have hfits' : p'.Fits := fits_iff.mp hfits i p' (by rw [getElem?_setPeer hp, if_pos rfl])
    have hrecv' := hstands.toPeer.recv hrecv (fits_of_peerLoop hloop hfits').1
    have hp' : PeerStands lib { p with toPeer := toPeer } P :=
      ⟨hstands.server, hrecv', hstands.toLeader⟩
    obtain ⟨bs, c', P', hpath, hlead, hpeers, hstands'⟩ :=
      peerLoop_path hlib hreach hP hp' hloop hfits'
    exact ⟨bs, c', hpath, hw.replace hp hlead hpeers hstands'⟩

/-- A write callback moves bytes. -/
theorem step_send (hw : Stands lib w c) {k : Int32} (h : w.next lib (.leaderSend i k) = some w' ∨
    w.next lib (.peerSend i k) = some w') : Stands lib w' c := by
  rcases h with h | h
  · simp only [next] at h
    split at h
    · cases h
    · next p hp =>
      obtain ⟨toPeer, hflush, rfl⟩ := Option.map_eq_some_iff.mp h
      obtain ⟨P, hP, hstands⟩ := hw.peer hp
      exact hw.moved hp hP ⟨hstands.server, hstands.toPeer.flush hflush, hstands.toLeader⟩
  · simp only [next] at h
    split at h
    · cases h
    · next p hp =>
      obtain ⟨toLeader, hflush, rfl⟩ := Option.map_eq_some_iff.mp h
      obtain ⟨P, hP, hstands⟩ := hw.peer hp
      exact hw.moved hp hP ⟨hstands.server, hstands.toPeer, hstands.toLeader.flush hflush⟩

theorem step_tick (hlib : lib.TakesText) (hreach : Cluster.system.Reachable Told c)
    (hw : Stands lib w c) (h : w.next lib (.tick iSended) = some w') (hfits : w'.Fits) :
    ∃ c', c.next .tick = some c' ∧ Stands lib w' c' := by
  simp only [next, hw.leader] at h
  cases hms : c.leader.broadCastAppendEntries with
  | error f =>
    rw [hms] at h
    cases h
  | ok ms =>
    rw [hms] at h
    refine ⟨c.send ms, by simp only [Cluster.next, hms], ?_⟩
    apply hw.send _ h hfits
    intro k m hm
    obtain ⟨_, _, q, p, _, _, _, hq, rfl⟩ := RaftServer.broadCastAppendEntries_mem hms hm
    apply validHosts_of_names hlib
    intro e he
    exact (sourced_of_told hreach).leader e (RaftServer.buildAppendEntries_mem hq e he)

theorem step_timeout (hw : Stands lib w c) (h : w.next lib (.timeout i) = some w') :
    ∃ c', c.next (.timeout i) = some c' ∧ Stands lib w' c' := by
  simp only [next] at h
  split at h
  · cases h
  · next p hp =>
    obtain ⟨P, hP, hstands⟩ := hw.peer hp
    rw [hstands.server] at h
    split at h
    · next harmed =>
      obtain rfl := Option.some.inj h
      refine ⟨c.setPeer i { P with server := P.server.heartBeatTimeout }, ?_, ?_⟩
      · simp only [Cluster.next, hP, if_pos harmed]
      · exact hw.replace hp rfl (Cluster.getElem?_setPeer hP _)
          ⟨rfl, hstands.toPeer, hstands.toLeader⟩
    · cases h

/-- Every callback is a run of `Cluster`. -/
theorem simulates (hlib : lib.TakesText) :
    System.Simulates (system lib) Cluster.system (Sound lib) Told (Stands lib) := by
  constructor
  · intro w hinit
    obtain ⟨hlaunched, hstands⟩ := stands_launched hinit
    exact ⟨_, hlaunched, hstands⟩
  · intro w c e w' hreach hw hsound hn
    have hfits : w'.Fits := hsound.1 w' hn
    cases e with
    | join disk addr raftPort nodeID k =>
      obtain ⟨c', hc', hw'⟩ := step_join hw hn hfits
      have htold : Told c (.join disk addr raftPort nodeID) := ⟨trivial, hsound.2⟩
      exact ⟨_, c', System.Path.single htold hc', hw'⟩
    | leaderRecv i n reacts => exact step_leaderRecv hlib hreach hw hsound.2 hn hfits
    | peerRecv i n reacts => exact step_peerRecv hlib hreach hw hn hfits
    | leaderSend i k => exact ⟨[], c, System.Path.nil _ _ _, step_send hw (Or.inl hn)⟩
    | peerSend i k => exact ⟨[], c, System.Path.nil _ _ _, step_send hw (Or.inr hn)⟩
    | tick iSended =>
      obtain ⟨c', hc', hw'⟩ := step_tick hlib hreach hw hn hfits
      have htold : Told c .tick := ⟨trivial, trivial⟩
      exact ⟨_, c', System.Path.single htold hc', hw'⟩
    | timeout i =>
      obtain ⟨c', hc', hw'⟩ := step_timeout hw hn
      have htold : Told c (.timeout i) := ⟨trivial, trivial⟩
      exact ⟨_, c', System.Path.single htold hc', hw'⟩

theorem wired_stands (hlib : lib.TakesText) (h : (system lib).Reachable (Sound lib) w) :
    ∃ c, Cluster.system.Reachable Cluster.Room c ∧ Stands lib w c := by
  obtain ⟨c, hc, hw⟩ := (simulates hlib).reachable h
  exact ⟨c, hc.mono fun _ _ hC => hC.1, hw⟩

/-- **The bytes carry the messages.** In every run of the cluster byte by byte in which no buffer
is overrun, the processes are in the states they have in a run of `Cluster`, and the bytes in the
two buffers and in the kernel are, in each direction, the frames of the messages on the way. -/
theorem wired_refines (hlib : lib.TakesText) (h : (system lib).Reachable (Sound lib) w) :
    ∃ c, Cluster.system.Reachable Cluster.Room c ∧ Stands lib w c := wired_stands hlib h

/-! ### A run -/

/-- The start node of `Cluster.started`. -/
def started : Wired := ⟨Cluster.started.leader, []⟩

/-- Every `send` takes five bytes. -/
def inFives : ℕ → Reaction := fun _ => ⟨.allOk, fun _ => 5⟩

/-- A process joins; its handshake arrives after two `send`s, and what it is answered is with the
kernel. -/
def answered : List WiredEvent :=
  [.join ⟨none, .empty⟩ RaftServer.startHost 7778 2 7, .peerSend 0 4, .leaderRecv 0 11 inFives,
    .leaderSend 0 50]

/-- It arrives in two pieces that end in the first message and behind the second one. -/
def joining : List WiredEvent := answered ++ [.peerRecv 0 30 inFives, .peerRecv 0 30 inFives]

theorem takesText_ascii : RaftServer.asciiProtobuf.TakesText := by
  intro bs htext
  apply List.all_eq_true.mpr
  intro b hb
  exact decide_eq_true (UInt8.lt_iff_toNat_lt.mpr (htext b hb))

theorem launched_started {C : Wired → WiredEvent → Prop} :
    (system RaftServer.asciiProtobuf).Reachable C started :=
  System.reachable_init ⟨⟨true, []⟩, ⟨none, .empty⟩, 7777, 1, rfl, rfl⟩

/-- The process that has joined has the whole log. -/
theorem wired_refines_joining : ∃ (w : Wired) (c : Cluster),
    (∃ p ∈ w.peers, p.server.entries.length = 2) ∧
      Cluster.system.Reachable Cluster.Room c ∧ Stands RaftServer.asciiProtobuf w c := by
  obtain ⟨w, hw, htest⟩ := System.exists_of_run (C := Sound RaftServer.asciiProtobuf) joining
    (fun w => decide (∃ p ∈ w.peers, p.server.entries.length = 2)) launched_started
    (by decide +kernel) (by decide +kernel)
  obtain ⟨c, hc, hstands⟩ := wired_refines takesText_ascii hw
  exact ⟨w, c, of_decide_eq_true htest, hc, hstands⟩

end Wired
end NanoRaft
