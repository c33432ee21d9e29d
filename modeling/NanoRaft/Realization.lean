import NanoRaft.WiredRefinement

/-!
# Every run of messages is one of bytes

The converse of `WiredRefinement`. A step of `Cluster` is one callback of the cluster byte by byte
in which the kernel delivers the first frame on the way and takes all that is sent
(`cluster_realized`). What holds in every run byte by byte can therefore not hold because such runs
are missing: each state of `Cluster` in which the messages fit into the buffers is there.
-/

namespace NanoRaft

/-- The frame of the message fits into a buffer. -/
def Message.Short (m : Message) : Prop := 6 + m.serialize.length ≤ bufferSize

instance (m : Message) : Decidable m.Short := inferInstanceAs (Decidable (_ ≤ _))

namespace Pipe

variable {lib : Protobuf} {p : Pipe} {m : Message} {ms : List Message}

/-! ## Pipes with everything in transit -/

/-- Both buffers are empty, and have not been overrun. -/
structure Settled (p : Pipe) : Prop where
  out : p.out.content = []
  inn : p.inn.content = []
  fits : p.fits = true

theorem settled_new : new.Settled := ⟨rfl, rfl, rfl⟩

/-- The bytes in transit are those of the messages. -/
theorem Carries.transit (h : p.Carries lib ms) (hs : p.Settled) :
    p.transit = ms.flatMap fun m => m.frame.encode := by
  rw [← h.stream, hs.inn, hs.out, List.nil_append, List.append_nil]

/-- `send` takes the whole buffer. -/
theorem push_whole (p : Pipe) (m : Message) :
    p.push m (p.out.queue m.id m.serialize).size = some
      { p with
        out := (p.out.queue m.id m.serialize).sentDirectly (p.out.queue m.id m.serialize).size
        transit := p.transit ++ (p.out.queue m.id m.serialize).content.take
          (p.out.queue m.id m.serialize).size.toInt.toNat
        fits := p.fits && decide (p.out.content.length + 6 + m.serialize.length ≤ bufferSize) } :=
  if_pos (Int32.le_refl _)

/-- A message can be sent at once. -/
theorem Carries.push_settled (h : p.Carries lib ms) (hs : p.Settled) (hshort : m.Short) :
    ∃ iSended p', p.push m iSended = some p' ∧ p'.Settled := by
  have hfit : p.out.content.length + 6 + m.serialize.length ≤ bufferSize := by
    rw [hs.out, List.length_nil, Nat.zero_add]
    exact hshort
  obtain ⟨hq, _⟩ := Buffer.queue_filled h.out m.id hfit
  obtain ⟨_, hrest⟩ := Buffer.sentDirectly_filled hq (Int32.le_refl _)
  refine ⟨_, _, p.push_whole m, ?_, hs.inn, ?_⟩
  · show Buffer.content (Buffer.sentDirectly _ _) = []
    rw [hrest, List.drop_eq_nil_iff, Buffer.length_content]
  · show (p.fits && decide _) = true
    rw [hs.fits, decide_eq_true hfit]
    rfl

theorem Carries.pushAll_settled {ms' : List Message} (h : p.Carries lib ms) (hs : p.Settled)
    (hms : ∀ m ∈ ms', m.ValidHosts lib ∧ m.Short) :
    ∃ iSended p', p.pushAll iSended ms' = some p' ∧ p'.Settled := by
  induction ms' generalizing p ms with
  | nil => exact ⟨fun _ => 0, p, rfl, hs⟩
  | cons m ms' ih =>
    obtain ⟨⟨hvalid, hshort⟩, hrest⟩ := List.forall_mem_cons.mp hms
    obtain ⟨k, t, ht, hts⟩ := h.push_settled hs hshort
    obtain ⟨iSended, p', hp', hs'⟩ := ih (h.push hvalid ht hts.fits) hts hrest
    refine ⟨fun i => Nat.casesOn i k iSended, p', ?_, hs'⟩
    show (p.push m k).bind _ = _
    rw [ht, Option.bind_some]
    exact hp'

/-- The loop has nothing to do when nothing has arrived. -/
theorem Carries.returned (h : p.Carries lib ms) (hinn : p.inn.content = []) :
    p.inn.arrivedMsg = .returned := by
  rcases h.arrivedMsg with ⟨hret, _⟩ | ⟨_, _, _, _, _, hshort⟩
  · exact hret
  · rw [hinn, List.length_nil] at hshort
    exact absurd hshort (Nat.not_lt_zero _)

/-- With the first frame in the input buffer and the others in transit, the loop takes the first
one off and returns. -/
theorem Carries.arrivedMsg_settled (h : p.Carries lib (m :: ms)) (hout : p.out.content = [])
    (htransit : p.transit = ms.flatMap fun m => m.frame.encode) :
    p.inn.arrivedMsg = .dispatched m.frame p.inn.takeOff ∧
      p.inn.takeOff.arrivedMsg = .returned ∧
      ({ p with inn := p.inn.takeOff } : Pipe).Carries lib ms ∧ p.inn.takeOff.content = [] := by
  have hstream := h.stream
  rw [hout, htransit, List.append_nil, List.flatMap_cons] at hstream
  have hinn : p.inn.content = m.frame.encode := List.append_cancel_right hstream
  rcases h.arrivedMsg with ⟨_, hnone⟩ | ⟨_, _, hms, hdis, hcarries, _⟩
  · have hnext := next_frame (h.short m List.mem_cons_self) []
    rw [List.append_nil, ← hinn, hnone] at hnext
    cases hnext
  · obtain ⟨rfl, rfl⟩ := List.cons.inj hms
    have hrest := hcarries.stream
    have hempty : p.inn.takeOff.content = [] := by
      simp only [hout, htransit, List.append_nil] at hrest
      exact List.append_left_eq_self.mp hrest
    exact ⟨hdis, hcarries.returned hempty, hcarries, hempty⟩

/-- `recv` can deliver the first frame alone. -/
theorem Carries.recv_settled (h : p.Carries lib (m :: ms)) (hs : p.Settled) :
    ∃ n q, p.recv n = some q ∧ q.Carries lib (m :: ms) ∧
      q.inn.arrivedMsg = .dispatched m.frame q.inn.takeOff ∧
      q.inn.takeOff.arrivedMsg = .returned ∧
      ({ q with inn := q.inn.takeOff } : Pipe).Carries lib ms ∧
      ({ q with inn := q.inn.takeOff } : Pipe).Settled := by
  have hshort : 6 + m.serialize.length ≤ bufferSize := h.short m List.mem_cons_self
  have hlen : m.frame.encode.length = m.serialize.length + 6 := length_encode m.frame
  have htransit := h.transit hs
  rw [List.flatMap_cons] at htransit
  have hle : m.frame.encode.length ≤ p.transit.length := by
    rw [htransit, List.length_append]
    exact Nat.le_add_right _ _
  have hroom : p.inn.content.length + m.frame.encode.length ≤ bufferSize := by
    rw [hs.inn, List.length_nil]
    omega
  have hrecv : p.recv m.frame.encode.length = some
      { p with
        transit := p.transit.drop m.frame.encode.length
        inn := p.inn.recv (p.transit.take m.frame.encode.length)
        fits := p.fits && decide (p.inn.content.length + m.frame.encode.length ≤ bufferSize) } :=
    if_pos ⟨by omega, hle, by omega⟩
  have hfits : (p.fits && decide (p.inn.content.length + m.frame.encode.length ≤ bufferSize)) =
      true := by
    rw [hs.fits, decide_eq_true hroom]
    rfl
  have hlater : p.transit.drop m.frame.encode.length = ms.flatMap fun m => m.frame.encode := by
    rw [htransit, List.drop_left]
  have hq := h.recv hrecv hfits
  obtain ⟨hdis, hret, hcarries, hempty⟩ := hq.arrivedMsg_settled hs.out hlater
  exact ⟨_, _, hrecv, hq, hdis, hret, hcarries, hs.out, hempty, hfits⟩

end Pipe

/-- Every message on the way fits into a buffer. -/
def Cluster.Short (c : Cluster) : Prop := ∀ P ∈ c.peers, ∀ m ∈ P.toPeer ++ P.toLeader, m.Short

instance (c : Cluster) : Decidable c.Short :=
  inferInstanceAs (Decidable (∀ P ∈ c.peers, ∀ m ∈ P.toPeer ++ P.toLeader, m.Short))

namespace Wired

variable {lib : Protobuf} {w w' : Wired} {i : ℕ} {p p' : WiredPeer} {P : Peer} {c c' : Cluster}
  {ms : Sends} {m : Message} {rest : List Message} {s : RaftServer} {puts : Puts}

/-! ## Clusters with everything in transit -/

/-- Whatever is on the way is with the kernel. -/
def Settled (w : Wired) : Prop :=
  ∀ (j : ℕ) (p : WiredPeer), w.peers[j]? = some p → p.toPeer.Settled ∧ p.toLeader.Settled

theorem Settled.fits (h : w.Settled) : w.Fits :=
  fits_iff.mpr fun j p hp => ⟨(h j p hp).1.fits, (h j p hp).2.fits⟩

theorem Settled.setPeer (h : w.Settled) (hp : w.peers[i]? = some p)
    (hp' : p'.toPeer.Settled ∧ p'.toLeader.Settled) : (w.setPeer i p').Settled := by
  intro j q hq
  rw [getElem?_setPeer hp] at hq
  split_ifs at hq
  · rw [← Option.some.inj hq]
    exact hp'
  · exact h j q hq

/-- What the start node sends can all be taken at once. -/
theorem Stands.send_settled (h : Stands lib w c) (hs : w.Settled)
    (hms : ∀ k m, (k, m) ∈ ms → m.ValidHosts lib)
    (hshort : ∀ k m, (k, m) ∈ ms → w.peers[k]? ≠ none → m.Short) :
    ∃ iSended w', w.send iSended ms = some w' ∧ w'.Settled := by
  induction ms generalizing w c with
  | nil => exact ⟨fun _ => 0, w, rfl, hs⟩
  | cons x ms ih =>
    obtain ⟨fd, m⟩ := x
    -- the first message is queued, if anybody is there to be sent to
    have hone : ∃ k w₁, w.push fd m k = some w₁ ∧ w₁.Settled := by
      unfold push
      cases hp : w.peers[fd]? with
      | none => exact ⟨0, w, rfl, hs⟩
      | some p =>
        obtain ⟨_, _, hstands⟩ := h.peer hp
        have hm : m.Short :=
          hshort fd m List.mem_cons_self (by rw [hp]; exact Option.some_ne_none p)
        obtain ⟨k, t, ht, hts⟩ := hstands.toPeer.push_settled (hs fd p hp).1 hm
        refine ⟨k, w.setPeer fd { p with toPeer := t }, ?_, hs.setPeer hp ⟨hts, (hs fd p hp).2⟩⟩
        simp only [ht, Option.map_some]
    obtain ⟨k, w₁, h₁, hs₁⟩ := hone
    have hsend : w.send (fun _ => k) [(fd, m)] = some w₁ := by
      show (w.push fd m k).bind _ = _
      rw [h₁]
      rfl
    have hw₁ : Stands lib w₁ (c.send [(fd, m)]) := by
      apply h.send _ hsend hs₁.fits
      intro j m' hm'
      exact hms j m' (List.mem_cons.mpr (Or.inl (List.mem_singleton.mp hm')))
    obtain ⟨iSended, w', hw', hs'⟩ := ih hw₁ hs₁
      (fun j m' hm' => hms j m' (List.mem_cons_of_mem _ hm'))
      (fun j m' hm' hj => hshort j m' (List.mem_cons_of_mem _ hm')
        fun hnone => hj ((send_spec hsend).2.1 j hnone))
    refine ⟨fun i => Nat.casesOn i k iSended, w', ?_, hs'⟩
    show (w.push fd m k).bind _ = _
    rw [h₁, Option.bind_some]
    exact hw'

/-- The messages that are sent to a peer are on the way to it. -/
theorem short_of_send (h : Stands lib w c) (hshort : (c.send ms).Short) :
    ∀ k m, (k, m) ∈ ms → w.peers[k]? ≠ none → m.Short := by
  intro k m hm hk
  obtain ⟨p, hp⟩ := Option.ne_none_iff_exists'.mp hk
  obtain ⟨P, hP, _⟩ := h.peer hp
  have hsent := Cluster.getElem?_send c ms k
  rw [hP, Option.map_some] at hsent
  apply hshort _ (List.mem_of_getElem? hsent)
  exact List.mem_append_left _ (List.mem_append_right _ (Cluster.mem_sentTo.mpr hm))

/-! ## One message in one callback -/

/-- There is an iteration for the message, and one for what comes after it. -/
theorem loopFuel_eq : ∃ fuel, loopFuel = fuel + 1 + 1 := ⟨1439, rfl⟩

/-- A peer handles its next message in one read callback. -/
theorem peerCallback (hp : PeerStands lib p P) (hs : p.toPeer.Settled ∧ p.toLeader.Settled)
    (hm : P.toPeer = m :: rest) (hproc : P.server.proc puts 0 m = .ok (s, ms))
    (hms : ∀ m ∈ Cluster.sentTo ms 0, m.ValidHosts lib ∧ m.Short) :
    ∃ n toPeer reacts p', p.toPeer.recv n = some toPeer ∧
      ({ p with toPeer := toPeer } : WiredPeer).handleArrivedMsg lib loopFuel reacts = some p' ∧
      PeerStands lib p' ⟨s, rest, P.toLeader ++ Cluster.sentTo ms 0⟩ ∧
      p'.toPeer.Settled ∧ p'.toLeader.Settled := by
  have hcarries := hp.toPeer
  rw [hm] at hcarries
  obtain ⟨n, q, hrecv, hq, hdis, hret, hrest, hsettled⟩ := hcarries.recv_settled hs.1
  obtain ⟨iSended, toLeader, hpush, hsent⟩ := hp.toLeader.pushAll_settled hs.2 hms
  refine ⟨n, q, fun _ => ⟨puts, iSended⟩, ⟨s, { q with inn := q.inn.takeOff }, toLeader⟩, hrecv,
    ?_, ⟨rfl, hrest, ?_⟩, hsettled, hsent⟩
  · obtain ⟨fuel, hfuel⟩ := loopFuel_eq
    have hacc : m.Accepted lib := hq.accepted List.mem_cons_self
    rw [← hp.server] at hproc
    rw [hfuel]
    simp only [WiredPeer.handleArrivedMsg, hdis, procFrame_frame hacc, hproc, hpush, hret,
      Option.bind_eq_bind, Option.bind_some]
  · exact hp.toLeader.pushAll (fun m hm => (hms m hm).1) hpush hsent.fits

/-- The start node handles the next message of a connection in one read callback. -/
theorem leaderCallback (hw : Stands lib w c) (hs : w.Settled) (hP : c.peers[i]? = some P)
    (hm : P.toLeader = m :: rest) (hl : c.listens i = true)
    (hproc : c.leader.proc puts i m = .ok (s, ms))
    (hms : ∀ k m, (k, m) ∈ ms → m.ValidHosts lib)
    (hshort : ((({ c with leader := s } : Cluster).setPeer i
      { P with toLeader := rest }).send ms).Short) :
    ∃ n reacts w', w.next lib (.leaderRecv i n reacts) = some w' ∧ w'.Settled ∧
      Stands lib w' ((({ c with leader := s } : Cluster).setPeer i
        { P with toLeader := rest }).send ms) := by
  obtain ⟨p, hpeer, hp⟩ := hw.wiredPeer hP
  obtain ⟨hto, hfrom⟩ := hs i p hpeer
  have hcarries := hp.toLeader
  rw [hm] at hcarries
  obtain ⟨n, q, hrecv, hq, hdis, hret, hrest, hsettled⟩ := hcarries.recv_settled hfrom
  -- the frame has arrived, then it is taken off
  have harrived := getElem?_setPeer hpeer { p with toLeader := q } i
  rw [if_pos rfl] at harrived
  have hset : Stands lib
      (({ w.setPeer i { p with toLeader := q } with leader := s } : Wired).setPeer i
        { p with toLeader := { q with inn := q.inn.takeOff } })
      (({ c with leader := s } : Cluster).setPeer i { P with toLeader := rest }) := by
    have hmoved : Stands lib (w.setPeer i { p with toLeader := q }) c :=
      hw.moved hpeer hP ⟨hp.server, hp.toPeer, by rw [hm]; exact hq⟩
    exact Stands.replace (w := { w.setPeer i { p with toLeader := q } with leader := s })
      (c := { c with leader := s }) ⟨rfl, hmoved.peers⟩ harrived rfl
      (Cluster.getElem?_setPeer hP _) ⟨hp.server, hp.toPeer, hrest⟩
  have hquiet : Settled (({ w.setPeer i { p with toLeader := q } with leader := s } : Wired).setPeer
      i { p with toLeader := { q with inn := q.inn.takeOff } }) := by
    intro j r hr
    rw [getElem?_setPeer (w := { w.setPeer i { p with toLeader := q } with leader := s })
      harrived] at hr
    split_ifs at hr with hj
    · rw [← Option.some.inj hr]
      exact ⟨hto, hsettled⟩
    · have hother := getElem?_setPeer hpeer { p with toLeader := q } j
      rw [if_neg hj] at hother
      exact hs j r (hother.symm.trans hr)
  obtain ⟨iSended, w', hsend, hs'⟩ := hset.send_settled hquiet hms (short_of_send hset hshort)
  refine ⟨n, fun _ => ⟨puts, iSended⟩, w', ?_, hs', hset.send hms hsend hs'.fits⟩
  have hlw : w.listens i = true := (listens_eq hw i).trans hl
  have hacc : m.Accepted lib := hq.accepted List.mem_cons_self
  rw [← hw.leader] at hproc
  -- after it there is nothing more on the connection
  have hlater : ∃ p', w'.peers[i]? = some p' ∧ p'.toLeader.inn = q.inn.takeOff := by
    obtain ⟨_, _, hsome⟩ := send_spec hsend
    have hhandled := getElem?_setPeer
      (w := { w.setPeer i { p with toLeader := q } with leader := s }) harrived
      { p with toLeader := { q with inn := q.inn.takeOff } } i
    rw [if_pos rfl] at hhandled
    obtain ⟨_, _, _, hp'⟩ := hsome i _ hhandled
    exact ⟨_, hp', rfl⟩
  obtain ⟨p', hp', hinn⟩ := hlater
  have hfirst : (w.setPeer i { p with toLeader := q }).leader = w.leader := rfl
  obtain ⟨fuel, hfuel⟩ := loopFuel_eq
  simp only [next, hpeer, hlw, if_true, hrecv, Option.bind_eq_bind, Option.bind_some, hfuel]
  simp only [handleArrivedMsg, harrived, hdis, hfirst, procFrame_frame hacc, hproc, hsend, hp',
    hinn, hret, Option.bind_eq_bind, Option.bind_some]

/-! ## Runs -/

/-- The runs of `Cluster` that are matched: the messages fit into the buffers, addresses are text,
and the log of the start node has room for a node that presents itself. -/
def Slim (c : Cluster) (e : Event) : Prop :=
  (∀ c' ∈ c.next e, c'.Short) ∧ match e with
    | .join _ addr _ _ => IsText addr
    | .toLeader i _ => RoomOn c.leader i
    | _ => True

instance : ∀ (c : Cluster) (e : Event), Decidable (Slim c e)
  | c, .join disk addr raftPort nodeID => inferInstanceAs (Decidable
      ((∀ c' ∈ c.next (.join disk addr raftPort nodeID), c'.Short) ∧ IsText addr))
  | c, .toLeader i puts => inferInstanceAs (Decidable
      ((∀ c' ∈ c.next (.toLeader i puts), c'.Short) ∧ RoomOn c.leader i))
  | c, .toPeer i puts =>
    inferInstanceAs (Decidable ((∀ c' ∈ c.next (.toPeer i puts), c'.Short) ∧ True))
  | c, .tick => inferInstanceAs (Decidable ((∀ c' ∈ c.next .tick, c'.Short) ∧ True))
  | c, .timeout i =>
    inferInstanceAs (Decidable ((∀ c' ∈ c.next (.timeout i), c'.Short) ∧ True))

theorem told_of_slim (hwf : Cluster.Wf c) {e : Event} (h : Slim c e) : Told c e := by
  cases e with
  | join disk addr raftPort nodeID => exact ⟨trivial, h.2⟩
  | toLeader i puts => exact ⟨roomFor_of_roomOn hwf h.2, trivial⟩
  | toPeer i puts => exact ⟨trivial, trivial⟩
  | tick => exact ⟨trivial, trivial⟩
  | timeout i => exact ⟨trivial, trivial⟩

/-- A reachable state of `Cluster`, and it with everything in transit. -/
structure Realizes (lib : Protobuf) (c : Cluster) (w : Wired) : Prop where
  reachable : Cluster.system.Reachable Told c
  stands : Stands lib w c
  settled : w.Settled

theorem realizes_launched (h : Cluster.Launched c) :
    Launched ⟨c.leader, []⟩ ∧ Realizes lib c ⟨c.leader, []⟩ := by
  have hreach : Cluster.system.Reachable Told c := System.reachable_init h
  obtain ⟨put, disk, port, id, hstart, hpeers⟩ := h
  refine ⟨⟨put, disk, port, id, hstart, rfl⟩, hreach, ⟨rfl, fun j => ?_⟩, fun j p hp => ?_⟩
  · rw [hpeers]
    exact .none
  · cases hp

theorem realize_join {disk : Disk} {addr : Bytes} {raftPort nodeID : UInt32}
    (h : Realizes lib c w) (hn : c.next (.join disk addr raftPort nodeID) = some c')
    (hshort : c'.Short) : ∃ k w', w.next lib (.join disk addr raftPort nodeID k) = some w' ∧
      w'.Settled ∧ Stands lib w' c' := by
  obtain rfl := Option.some.inj hn
  have hm : (Message.handshake_q ⟨raftPort, nodeID⟩).Short :=
    hshort _ (List.mem_append_right _ List.mem_cons_self) _ List.mem_cons_self
  obtain ⟨k, t, ht, hts⟩ :=
    (Pipe.carries_new lib).push_settled Pipe.settled_new hm
  have hnext : w.next lib (.join disk addr raftPort nodeID k) = some
      { leader := w.leader.accept w.peers.length addr
        peers := w.peers ++
          [⟨.launchJoin disk 0 RaftServer.startHost raftPort, Pipe.new, t⟩] } := by
    simp only [next, ht, Option.bind_eq_bind, Option.bind_some]
  have hquiet : Settled
      { leader := w.leader.accept w.peers.length addr
        peers := w.peers ++
          [⟨.launchJoin disk 0 RaftServer.startHost raftPort, Pipe.new, t⟩] } := by
    intro j p hp
    rcases List.mem_append.mp (List.mem_of_getElem? hp) with hmem | hmem
    · obtain ⟨k, hk⟩ := List.mem_iff_getElem?.mp hmem
      exact h.settled k p hk
    · rw [List.mem_singleton.mp hmem]
      exact ⟨Pipe.settled_new, hts⟩
  obtain ⟨c', hc', hstands⟩ := step_join h.stands hnext hquiet.fits
  obtain rfl := Option.some.inj hc'
  exact ⟨k, _, hnext, hquiet, hstands⟩

theorem realize_toLeader (hlib : lib.TakesText) (h : Realizes lib c w)
    (hn : c.next (.toLeader i puts) = some c') (hshort : c'.Short) :
    ∃ n reacts w', w.next lib (.leaderRecv i n reacts) = some w' ∧ w'.Settled ∧
      Stands lib w' c' := by
  obtain ⟨P, m, rest, ms, hP, hm, hl, hproc, _⟩ := Cluster.next_toLeader hn
  generalize c'.leader = s at hproc
  have hsourced := sourced_of_told h.reachable
  obtain ⟨_, hnames⟩ := RaftServer.proc_names hproc hsourced.leader
    (hsourced.toLeader i P hP m (by rw [hm]; exact List.mem_cons_self))
  obtain rfl := Option.some.inj (hn.symm.trans (Cluster.next_toLeader_of hP hm hl hproc))
  exact leaderCallback h.stands h.settled hP hm hl hproc
    (fun k m' hm' => validHosts_of_names hlib (hnames k m' hm')) hshort

theorem realize_toPeer (hlib : lib.TakesText) (h : Realizes lib c w)
    (hn : c.next (.toPeer i puts) = some c') (hshort : c'.Short) :
    ∃ n reacts w', w.next lib (.peerRecv i n reacts) = some w' ∧ w'.Settled ∧
      Stands lib w' c' := by
  obtain ⟨P, m, rest, s, ms, hP, hm, hproc, hlead, hpeers⟩ := Cluster.next_toPeer hn
  obtain ⟨p, hpeer, hp⟩ := h.stands.wiredPeer hP
  have hsourced := sourced_of_told h.reachable
  have hnamed : m.Names Texts :=
    hsourced.toPeer i P hP m (by rw [hm]; exact List.mem_cons_self)
  obtain ⟨_, hnames⟩ := RaftServer.proc_names hproc (hsourced.peers i P hP) (Or.inl hnamed)
  have hafter := hpeers i
  rw [if_pos rfl] at hafter
  have hms : ∀ m ∈ Cluster.sentTo ms 0, m.ValidHosts lib ∧ m.Short := by
    intro m' hm'
    refine ⟨validHosts_of_names hlib (hnames 0 m' (Cluster.mem_sentTo.mp hm')), ?_⟩
    apply hshort _ (List.mem_of_getElem? hafter)
    exact List.mem_append_right _ (List.mem_append_right _ hm')
  obtain ⟨n, q, reacts, p', hrecv, hloop, hstands, hs'⟩ :=
    peerCallback hp (h.settled i p hpeer) hm hproc hms
  refine ⟨n, reacts, w.setPeer i p', ?_, h.settled.setPeer hpeer hs',
    h.stands.replace hpeer hlead hpeers hstands⟩
  simp only [next, hpeer, hrecv, hloop, Option.bind_eq_bind, Option.bind_some]

theorem realize_tick (hlib : lib.TakesText) (h : Realizes lib c w)
    (hn : c.next .tick = some c') (hshort : c'.Short) :
    ∃ iSended w', w.next lib (.tick iSended) = some w' ∧ w'.Settled ∧ Stands lib w' c' := by
  simp only [Cluster.next] at hn
  split at hn
  · cases hn
  · next ms hms =>
    obtain rfl := Option.some.inj hn
    have hvalid : ∀ k m, (k, m) ∈ ms → m.ValidHosts lib := by
      intro k m hm
      obtain ⟨_, _, q, p, _, _, _, hq, rfl⟩ := RaftServer.broadCastAppendEntries_mem hms hm
      apply validHosts_of_names hlib
      intro e he
      exact (sourced_of_told h.reachable).leader e (RaftServer.buildAppendEntries_mem hq e he)
    obtain ⟨iSended, w', hsend, hs'⟩ :=
      h.stands.send_settled h.settled hvalid (short_of_send h.stands hshort)
    refine ⟨iSended, w', ?_, hs', h.stands.send hvalid hsend hs'.fits⟩
    simp only [next, h.stands.leader, hms]
    exact hsend

theorem realize_timeout (h : Realizes lib c w) (hn : c.next (.timeout i) = some c') :
    ∃ w', w.next lib (.timeout i) = some w' ∧ w'.Settled ∧ Stands lib w' c' := by
  simp only [Cluster.next] at hn
  split at hn
  · cases hn
  · next P hP =>
    split at hn
    · next harmed =>
      obtain rfl := Option.some.inj hn
      obtain ⟨p, hpeer, hp⟩ := h.stands.wiredPeer hP
      rw [← hp.server] at harmed
      refine ⟨w.setPeer i { p with server := p.server.heartBeatTimeout }, ?_,
        h.settled.setPeer hpeer (h.settled i p hpeer), ?_⟩
      · simp only [next, hpeer, if_pos harmed]
      · rw [← hp.server]
        exact h.stands.replace hpeer rfl (Cluster.getElem?_setPeer hP _)
          ⟨rfl, hp.toPeer, hp.toLeader⟩
    · cases hn

/-- The end of a step: it was one callback. -/
theorem Realizes.path {e : Event} {e' : WiredEvent} (h : Realizes lib c w) (hslim : Slim c e)
    (hn : c.next e = some c') (hw : w.next lib e' = some w') (hs : w'.Settled)
    (hstands : Stands lib w' c')
    (hsound : (∀ w' ∈ next lib w e', w'.Fits) → Sound lib w e') :
    ∃ es w', (system lib).Path (Sound lib) w es w' ∧ Realizes lib c' w' := by
  have hfits : ∀ w₁ ∈ next lib w e', w₁.Fits := by
    intro w₁ hw₁
    rw [← Option.some.inj (hw.symm.trans hw₁)]
    exact hs.fits
  exact ⟨_, w', System.Path.single (hsound hfits) hw,
    h.reachable.step (told_of_slim (wf_of_told h.reachable) hslim) hn, hstands, hs⟩

/-- Every step of `Cluster` is a callback. -/
theorem simulated (hlib : lib.TakesText) :
    System.Simulates Cluster.system (system lib) Slim (Sound lib) (Realizes lib) := by
  constructor
  · intro c hinit
    exact ⟨_, realizes_launched hinit⟩
  · intro c w e c' _ h hslim hn
    have hshort : c'.Short := hslim.1 c' hn
    cases e with
    | join disk addr raftPort nodeID =>
      obtain ⟨k, w', hw, hs, hstands⟩ := realize_join h hn hshort
      exact h.path hslim hn hw hs hstands fun hfits => ⟨hfits, hslim.2⟩
    | toLeader i puts =>
      obtain ⟨n, reacts, w', hw, hs, hstands⟩ := realize_toLeader hlib h hn hshort
      refine h.path hslim hn hw hs hstands fun hfits => ⟨hfits, ?_⟩
      rw [h.stands.leader]
      exact hslim.2
    | toPeer i puts =>
      obtain ⟨n, reacts, w', hw, hs, hstands⟩ := realize_toPeer hlib h hn hshort
      exact h.path hslim hn hw hs hstands fun hfits => ⟨hfits, trivial⟩
    | tick =>
      obtain ⟨iSended, w', hw, hs, hstands⟩ := realize_tick hlib h hn hshort
      exact h.path hslim hn hw hs hstands fun hfits => ⟨hfits, trivial⟩
    | timeout i =>
      obtain ⟨w', hw, hs, hstands⟩ := realize_timeout h hn
      exact h.path hslim hn hw hs hstands fun hfits => ⟨hfits, trivial⟩

/-- **Every run of messages is one of bytes.** Each state of `Cluster` that is reached with messages
that fit into the buffers is the state of the processes in a run byte by byte in which no buffer
is overrun, with every message on the way in transit as its bytes. -/
theorem cluster_realized (hlib : lib.TakesText) (h : Cluster.system.Reachable Slim c) :
    ∃ w, (system lib).Reachable (Sound lib) w ∧ Stands lib w c ∧
      ∀ p ∈ w.peers, p.toPeer.Settled ∧ p.toLeader.Settled := by
  obtain ⟨w, hw, hr⟩ := (simulated hlib).reachable h
  refine ⟨w, hw, hr.stands, fun p hp => ?_⟩
  obtain ⟨j, hj⟩ := List.mem_iff_getElem?.mp hp
  exact hr.settled j p hj

/-- A process joins and is told the whole log, which it acknowledges. -/
theorem cluster_realized_joining : ∃ (c : Cluster) (w : Wired),
    (∃ P ∈ c.peers, P.server.entries.length = 2 ∧ P.toLeader ≠ []) ∧
      (system RaftServer.asciiProtobuf).Reachable (Sound RaftServer.asciiProtobuf) w ∧
      Stands RaftServer.asciiProtobuf w c := by
  obtain ⟨c, hc, htest⟩ := System.exists_of_run (C := Slim)
    [.join ⟨none, .empty⟩ RaftServer.startHost 7778 2, .toLeader 0 .allOk, .toPeer 0 .allOk]
    (fun c => c.peers.any fun P => P.server.entries.length = 2 && !P.toLeader.isEmpty)
    (Cluster.reachable_started (C := Slim)) (by decide +kernel) (by decide +kernel)
  obtain ⟨w, hw, hstands, _⟩ := cluster_realized takesText_ascii hc
  obtain ⟨P, hP, htest⟩ := List.any_eq_true.mp htest
  rw [Bool.and_eq_true, decide_eq_true_iff, Bool.not_eq_true', List.isEmpty_eq_false_iff] at htest
  exact ⟨c, w, ⟨P, hP, htest⟩, hw, hstands⟩

end Wired
end NanoRaft
