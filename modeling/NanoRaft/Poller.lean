import NanoRaft.Registry

/-!
# Channels and the poller

The channel of a connection, the status machine of `EPoller::UpdateChannel` and the
kernel's interest list, with the callbacks that move them: accept, `RecvCallback` with the
loop of `HandleArrivedMsg`, `SendCallback` and `CloseCallback`.

* `synced_of_reachable`: the interest list is what the channels say, and the `reading` of a
  connection is the kernel's;
* `heard_iff`: after which handshakes the leader still hears the node.
-/

namespace NanoRaft

/-- What is listened for: `s_iReadEvent` and `s_iWriteEvent`. -/
structure Events where
  read : Bool
  write : Bool
  deriving DecidableEq, Repr

/-- `s_iNoneEvent`. -/
def Events.none : Events := ⟨false, false⟩

/-- `m_iStatus_` of a channel. -/
inductive ChannelStatus where
  | iIsNew
  | iIsAdded
  | iIsDeleted
  deriving DecidableEq, Repr

structure Channel where
  events : Events
  status : ChannelStatus
  deriving DecidableEq, Repr

/-! ## The kernel's side -/

inductive EpollOp where
  | EPOLL_CTL_ADD
  | EPOLL_CTL_MOD
  | EPOLL_CTL_DEL

/-- The interest list of an epoll instance. -/
abbrev Epoll := ℕ → Option Events

/-- `epoll_ctl`: adding what is there, and changing or deleting what is not, fails and changes
nothing; the failure is only printed. -/
def Epoll.ctl (k : Epoll) (iOP : EpollOp) (fd : ℕ) (ev : Events) : Epoll :=
  match iOP, k fd with
  | .EPOLL_CTL_ADD, .none => Function.update k fd (some ev)
  | .EPOLL_CTL_MOD, some _ => Function.update k fd (some ev)
  | .EPOLL_CTL_DEL, some _ => Function.update k fd .none
  | _, _ => k

/-- `close` takes the descriptor off the list. -/
def Epoll.close (k : Epoll) (fd : ℕ) : Epoll := Function.update k fd .none

/-! ## The server with its channels -/

/-- A server, the channel of the connection registered under each number, and the kernel's
interest list. -/
structure Poller where
  server : RaftServer
  channel : ℕ → Channel
  epoll : Epoll

/-- A message handled by `HandleArrivedMsg`: what the databases answer, and
`OutBufferSize()` after its handler. -/
structure ArrivedMsg where
  puts : Puts
  message : Message
  outBufferSize : Int32

inductive PollEvent where
  /-- `TcpAcceptCallback` with a number that is not registered. -/
  | accept (fd : ℕ) (addr : Bytes)
  /-- `CloseCallback`. -/
  | close (fd : ℕ)
  /-- `RecvCallback` that finds these messages complete. -/
  | arrived (fd : ℕ) (msgs : List ArrivedMsg)
  /-- `SendCallback` that empties the output buffer. -/
  | sentAll (fd : ℕ)

namespace Poller

/-- `EPoller::UpdateChannel`. -/
def updateChannel (p : Poller) (fd : ℕ) : Poller :=
  let ch := p.channel fd
  let setStatus (st : ChannelStatus) := Function.update p.channel fd { ch with status := st }
  match ch.status with
  | .iIsNew | .iIsDeleted =>
    { p with channel := setStatus .iIsAdded, epoll := p.epoll.ctl .EPOLL_CTL_ADD fd ch.events }
  | .iIsAdded =>
    if ch.events = .none then
      { p with channel := setStatus .iIsDeleted, epoll := p.epoll.ctl .EPOLL_CTL_DEL fd ch.events }
    else { p with epoll := p.epoll.ctl .EPOLL_CTL_MOD fd ch.events }

/-- Change `m_iEvents_` and tell the poller. -/
def setEvents (p : Poller) (fd : ℕ) (ev : Events) : Poller :=
  updateChannel { p with
    channel := Function.update p.channel fd { p.channel fd with events := ev } } fd

def enableRead (p : Poller) (fd : ℕ) : Poller :=
  p.setEvents fd { (p.channel fd).events with read := true }

def enableWrite (p : Poller) (fd : ℕ) : Poller :=
  p.setEvents fd { (p.channel fd).events with write := true }

def disableWrite (p : Poller) (fd : ℕ) : Poller :=
  p.setEvents fd { (p.channel fd).events with write := false }

def disableAll (p : Poller) (fd : ℕ) : Poller := p.setEvents fd .none

/-- `Proc`: a handshake that replaces a connection disables the channel it came on itself,
and closes the other descriptor. -/
def proc (p : Poller) (fd : ℕ) (a : ArrivedMsg) : Result Poller := do
  let (s, _) ← p.server.proc a.puts fd a.message
  match p.server.closes fd a.message with
  | some iFd =>
    let p := p.disableAll fd
    pure { p with server := s, epoll := p.epoll.close iFd }
  | .none => pure { p with server := s }

/-- The write interest at the end of an iteration. -/
def writeInterest (p : Poller) (fd : ℕ) (outBufferSize : Int32) : Poller :=
  if 0 < outBufferSize then p.enableWrite fd
  else if outBufferSize = 0 then p.disableWrite fd
  else p

/-- One iteration of `HandleArrivedMsg`. -/
def arrivedMsg (p : Poller) (fd : ℕ) (a : ArrivedMsg) : Result Poller := do
  let p ← p.proc fd a
  pure (p.writeInterest fd a.outBufferSize)

/-- `HandleArrivedMsg` over the messages that are complete. -/
def handleArrivedMsg (p : Poller) (fd : ℕ) : List ArrivedMsg → Result Poller
  | [] => .ok p
  | a :: as => do
    let p ← p.arrivedMsg fd a
    p.handleArrivedMsg fd as

/-- A number is given out only when it is not registered, and the kernel reports what it has
been asked to report. -/
def enabled (p : Poller) : PollEvent → Bool
  | .accept fd _ => (p.server.conns.find? fd).isNone
  | .close fd => (p.server.conns.find? fd).isSome
  | .arrived fd _ => (p.server.conns.find? fd).isSome && (p.epoll fd).any Events.read
  | .sentAll fd => (p.server.conns.find? fd).isSome && (p.epoll fd).any Events.write

/-- The constructor of `Conn`: a new channel, on which writing is disabled and reading
enabled. -/
def newConn (p : Poller) (fd : ℕ) : Poller :=
  let p := { p with channel := Function.update p.channel fd ⟨.none, .iIsNew⟩ }
  (p.disableWrite fd).enableRead fd

/-- One callback. -/
def handle (p : Poller) : PollEvent → Result Poller
  | .accept fd addr => .ok { p.newConn fd with server := (p.newConn fd).server.accept fd addr }
  | .close fd => do
    let p := p.disableAll fd
    let s ← p.server.offlineConn fd
    pure { p with server := s, epoll := p.epoll.close fd }
  | .arrived fd msgs => p.handleArrivedMsg fd msgs
  | .sentAll fd => .ok (p.disableWrite fd)

def next (p : Poller) (e : PollEvent) : Option Poller :=
  if p.enabled e then (p.handle e).toOption else .none

/-- The runs of the event loop of a server launched by `start`. Ticks of the leader timer,
which only send, are left out. -/
def polling : System Poller PollEvent where
  init p := (∃ put disk iRaftPort iNodeID,
      RaftServer.launchStart put disk iRaftPort iNodeID = .ok p.server) ∧ ∀ fd, p.epoll fd = .none
  next := next

/-! ## One channel -/

variable {p p' : Poller} {fd : ℕ}

/-- The kernel's entry is what the channel listens for; a deleted channel listens for
nothing. -/
def Synced (ch : Channel) (entry : Option Events) : Prop :=
  (ch.status = .iIsAdded ∧ entry = some ch.events) ∨
    (ch.status = .iIsDeleted ∧ entry = .none ∧ ch.events = .none)

/-- The kernel watches for input exactly when the channel does. -/
theorem Synced.read {ch : Channel} {entry : Option Events} (h : Synced ch entry) :
    entry.any Events.read = ch.events.read := by
  rcases h with ⟨_, he⟩ | ⟨_, he, hn⟩
  · rw [he]
    rfl
  · rw [he, hn]
    rfl

theorem ctl_of_ne (k : Epoll) (iOP : EpollOp) {fd j : ℕ} (ev : Events) (h : j ≠ fd) :
    k.ctl iOP fd ev j = k j := by
  cases hk : k fd with
  | none => cases iOP <;> simp [Epoll.ctl, hk, h]
  | some e => cases iOP <;> simp [Epoll.ctl, hk, h]

/-- Telling the poller touches this channel and its entry only. -/
theorem updateChannel_frame (p : Poller) (fd : ℕ) :
    (p.updateChannel fd).server = p.server ∧
      ((p.updateChannel fd).channel fd).events = (p.channel fd).events ∧
      ∀ k, k ≠ fd → (p.updateChannel fd).channel k = p.channel k ∧
        (p.updateChannel fd).epoll k = p.epoll k := by
  unfold updateChannel
  dsimp only
  split
  · refine ⟨rfl, by simp, fun k hk => ⟨Function.update_of_ne hk _ _, ctl_of_ne _ _ _ hk⟩⟩
  · refine ⟨rfl, by simp, fun k hk => ⟨Function.update_of_ne hk _ _, ctl_of_ne _ _ _ hk⟩⟩
  · split_ifs
    · refine ⟨rfl, by simp, fun k hk => ⟨Function.update_of_ne hk _ _, ctl_of_ne _ _ _ hk⟩⟩
    · exact ⟨rfl, rfl, fun k hk => ⟨rfl, ctl_of_ne _ _ _ hk⟩⟩

/-- Telling the poller brings the kernel's entry in step with the channel. -/
theorem synced_updateChannel
    (h : ((p.channel fd).status = .iIsAdded ∧ (p.epoll fd).isSome) ∨
      ((p.channel fd).status ≠ .iIsAdded ∧ p.epoll fd = .none)) :
    Synced ((p.updateChannel fd).channel fd) ((p.updateChannel fd).epoll fd) := by
  unfold updateChannel Epoll.ctl
  dsimp only
  rcases h with ⟨hst, hk⟩ | ⟨hst, hk⟩
  · obtain ⟨ev, hev⟩ := Option.isSome_iff_exists.mp hk
    rw [hst, hev]
    dsimp only
    split_ifs with hnone
    · exact Or.inr ⟨by simp, by simp, by simpa using hnone⟩
    · exact Or.inl ⟨hst, by simp⟩
  · -- a new channel and a deleted one are added
    rw [hk]
    cases hs : (p.channel fd).status with
    | iIsAdded => exact absurd hs hst
    | iIsNew => exact Or.inl ⟨by simp, by simp⟩
    | iIsDeleted => exact Or.inl ⟨by simp, by simp⟩

/-- A channel that can be told about: in step with the kernel, or new. -/
def Ready (p : Poller) (fd : ℕ) : Prop :=
  Synced (p.channel fd) (p.epoll fd) ∨ ((p.channel fd).status = .iIsNew ∧ p.epoll fd = .none)

/-- A change of interest touches this channel and its entry only. -/
theorem setEvents_frame (p : Poller) (fd : ℕ) (ev : Events) :
    ((p.setEvents fd ev).channel fd).events = ev ∧ (p.setEvents fd ev).server = p.server ∧
      ∀ k, k ≠ fd → (p.setEvents fd ev).channel k = p.channel k ∧
        (p.setEvents fd ev).epoll k = p.epoll k := by
  have hframe := updateChannel_frame { p with
    channel := Function.update p.channel fd { p.channel fd with events := ev } } fd
  obtain ⟨hserver, hevents, hothers⟩ := hframe
  refine ⟨?_, hserver, fun k hk => ?_⟩
  · refine hevents.trans ?_
    show (Function.update p.channel fd _ fd).events = ev
    rw [Function.update_self]
  · obtain ⟨h1, h2⟩ := hothers k hk
    exact ⟨h1.trans (Function.update_of_ne hk _ _), h2⟩

/-- It keeps them in step. -/
theorem setEvents_spec (h : p.Ready fd) (ev : Events) :
    Synced ((p.setEvents fd ev).channel fd) ((p.setEvents fd ev).epoll fd) ∧
      ((p.setEvents fd ev).channel fd).events = ev ∧
      (p.setEvents fd ev).server = p.server ∧
      ∀ k, k ≠ fd → (p.setEvents fd ev).channel k = p.channel k ∧
        (p.setEvents fd ev).epoll k = p.epoll k := by
  refine ⟨synced_updateChannel ?_, setEvents_frame p fd ev⟩
  show ((Function.update p.channel fd _ fd).status = _ ∧ _) ∨ _
  rw [Function.update_self]
  rcases h with (⟨hst, hk⟩ | ⟨hst, hk, _⟩) | ⟨hst, hk⟩
  · exact Or.inl ⟨hst, by rw [hk]; rfl⟩
  · exact Or.inr ⟨by simp [hst], hk⟩
  · exact Or.inr ⟨by simp [hst], hk⟩

end Poller

namespace RaftServer

/-! ## What a message does to the connections -/

variable {s s' : RaftServer} {puts : Puts} {fd : ℕ} {ms : Sends}

/-- A handshake stops the connection it came on from reading if it replaces another one. -/
theorem handshakeQ_reading {q : HandshakeQ} {c : Conn} (hc : s.conns.find? fd = some c)
    (h : s.handshakeQ puts fd q = .ok (s', ms)) (k : ℕ) :
    (s'.conns.find? k).map Conn.reading =
      if s.replaced fd q = some k then none
      else (s.conns.find? k).map fun c => c.reading && decide (k = fd → s.replaced fd q = none) := by
  rcases handshakeQ_cases h with ⟨hnone, _⟩ | ⟨hrole, hs', _⟩ |
    ⟨hlead, ⟨old, hold, hret⟩, _⟩ | ⟨hlead, hnone, ⟨c', hc', hwel⟩, _⟩
  · rw [hc] at hnone
    cases hnone
  · have hrep : s.replaced fd q = none := by rw [replaced, if_neg hrole]
    rw [hs', hrep]
    simp
  · by_cases hof : old = fd
    · -- the node is back on the connection it has
      have hrep : s.replaced fd q = none := by simp [replaced, hlead, hold, hof]
      rw [hrep, hret.conns]
      by_cases hk : k = fd
      · simp [hk, hc, hof]
      · simp [hk, hof]
    · have hrep : s.replaced fd q = some old := replaced_eq_some.mpr ⟨hlead, hold, hof⟩
      rw [hrep, hret.conns]
      by_cases hk : k = fd
      · subst hk
        simp [hc, hof]
      · by_cases hko : k = old
        · simp [hko, hof]
        · simp [hk, hko, Ne.symm hko]
  · have hrep : s.replaced fd q = none := by simp [replaced, hlead, hnone]
    have hcc : c' = c := by
      rw [hc] at hc'
      exact (Option.some.inj hc').symm
    rw [hrep, hwel.conns]
    by_cases hk : k = fd
    · simp [hk, hc, hcc]
    · simp [hk]

end RaftServer

namespace Poller

variable {p p' : Poller} {fd : ℕ}

/-! ## Invariants -/

/-- The channels and the kernel are in step, a number that is not registered is not on the
list, and a connection that reads is one the kernel watches for input. -/
structure InStep (p : Poller) : Prop where
  synced : ∀ fd c, p.server.conns.find? fd = some c →
    Synced (p.channel fd) (p.epoll fd) ∧ c.reading = (p.channel fd).events.read
  absent : ∀ fd, p.server.conns.find? fd = .none → p.epoll fd = .none

theorem InStep.ready (h : p.InStep) {c : Conn} (hc : p.server.conns.find? fd = some c) :
    p.Ready fd := Or.inl (h.synced fd c hc).1

/-- What a message does to the connections and to their reading. -/
theorem proc_reading {c : Conn} (hc : p.server.conns.find? fd = some c) {puts : Puts}
    {m : Message} {s' : RaftServer} {ms : Sends} (h : p.server.proc puts fd m = .ok (s', ms))
    (k : ℕ) :
    (s'.conns.find? k).map Conn.reading =
      if p.server.closes fd m = some k then .none
      else (p.server.conns.find? k).map fun c =>
        c.reading && decide (k = fd → p.server.closes fd m = .none) := by
  cases m with
  | handshake_q q => exact RaftServer.handshakeQ_reading hc h k
  | handshake_r | appendentries_q | appendentries_r =>
    rw [(RaftServer.proc_other (by simp) h).1]
    simp [RaftServer.closes]

/-- A server with the same connections reading. -/
theorem inStep_server (h : p.InStep) {s : RaftServer}
    (hreading : ∀ k, (s.conns.find? k).map Conn.reading =
      (p.server.conns.find? k).map Conn.reading) : InStep { p with server := s } := by
  refine ⟨fun k c hk => ?_, fun k hk => ?_⟩
  · have hk' := hreading k
    change s.conns.find? k = some c at hk
    rw [hk] at hk'
    obtain ⟨c0, hc0, heq⟩ := Option.map_eq_some_iff.mp hk'.symm
    obtain ⟨hsync, hread⟩ := h.synced k c0 hc0
    exact ⟨hsync, by rw [← heq]; exact hread⟩
  · have hk' := hreading k
    change s.conns.find? k = .none at hk
    rw [hk] at hk'
    exact h.absent k (Option.map_eq_none_iff.mp hk'.symm)

/-- A channel is disabled, and a descriptor closed whose connection is gone. -/
theorem inStep_disableAll (h : p.InStep) {c : Conn} (hc : p.server.conns.find? fd = some c)
    {s : RaftServer} {iFd : ℕ} (hreading : ∀ k, (s.conns.find? k).map Conn.reading =
      if k = iFd then .none
      else (p.server.conns.find? k).map fun c => c.reading && decide (k ≠ fd)) :
    InStep { p.disableAll fd with server := s, epoll := (p.disableAll fd).epoll.close iFd } := by
  obtain ⟨hsync, hev, _, hothers⟩ := setEvents_spec (h.ready hc) .none
  have hclosed : ∀ k, k ≠ iFd →
      ((p.disableAll fd).epoll.close iFd) k = (p.disableAll fd).epoll k :=
    fun k hk => Function.update_of_ne hk _ _
  refine ⟨fun k c' hk => ?_, fun k hk => ?_⟩
  · have hk' := hreading k
    change s.conns.find? k = some c' at hk
    rw [hk] at hk'
    have hki : k ≠ iFd := by
      intro heq
      rw [if_pos heq] at hk'
      cases hk'
    rw [if_neg hki] at hk'
    obtain ⟨c0, hc0, hread'⟩ := Option.map_eq_some_iff.mp hk'.symm
    show Synced ((p.disableAll fd).channel k) (((p.disableAll fd).epoll.close iFd) k) ∧
      c'.reading = ((p.disableAll fd).channel k).events.read
    rw [hclosed k hki, disableAll, ← hread']
    by_cases hkf : k = fd
    · rw [hkf, hev]
      exact ⟨hsync, by simp [Events.none]⟩
    · obtain ⟨hsync0, hread0⟩ := h.synced k c0 hc0
      rw [(hothers k hkf).1, (hothers k hkf).2, ← hread0]
      exact ⟨hsync0, by simp [hkf]⟩
  · change s.conns.find? k = .none at hk
    show ((p.disableAll fd).epoll.close iFd) k = .none
    by_cases hki : k = iFd
    · rw [hki]
      exact Function.update_self _ _ _
    · have hk' := hreading k
      rw [hk, if_neg hki] at hk'
      have hnone := Option.map_eq_none_iff.mp hk'.symm
      have hkf : k ≠ fd := by
        intro heq
        rw [heq, hc] at hnone
        cases hnone
      rw [hclosed k hki]
      exact (hothers k hkf).2.trans (h.absent k hnone)

/-- Handling a message keeps the channels in step. The channel goes on reading unless another
connection was closed. -/
theorem proc_spec (h : p.InStep) {c : Conn} (hc : p.server.conns.find? fd = some c)
    {a : ArrivedMsg} (hok : p.proc fd a = .ok p') :
    p'.InStep ∧ (∃ c', p'.server.conns.find? fd = some c') ∧
      ((p'.channel fd).events.read = true ↔
        (p.channel fd).events.read = true ∧ p.server.closes fd a.message = .none) := by
  obtain ⟨⟨s, ms⟩, hs, hok⟩ := Except.bind_eq_ok.mp hok
  have hreading := proc_reading hc hs
  have hthere : ∃ c', s.conns.find? fd = some c' := by
    have hfd := hreading fd
    rw [if_neg fun heq => RaftServer.closes_ne heq rfl, hc] at hfd
    obtain ⟨c', hc', _⟩ := Option.map_eq_some_iff.mp hfd
    exact ⟨c', hc'⟩
  cases hclose : p.server.closes fd a.message with
  | none =>
    rw [hclose] at hok
    obtain rfl := Except.ok.inj hok
    refine ⟨inStep_server h fun k => ?_, hthere, by simp⟩
    rw [hreading, hclose, if_neg (by simp)]
    simp
  | some iFd =>
    rw [hclose] at hok
    obtain rfl := Except.ok.inj hok
    refine ⟨inStep_disableAll h hc fun k => ?_, hthere, ?_⟩
    · rw [hreading, hclose]
      simp [eq_comm]
    · obtain ⟨_, hev, _, _⟩ := setEvents_spec (h.ready hc) .none
      refine iff_of_false (fun hread => ?_) fun h => by cases h.2
      change ((p.setEvents fd .none).channel fd).events.read = true at hread
      rw [hev] at hread
      cases hread

/-- A change of the write interest leaves everything else as it is. -/
theorem inStep_setEvents (h : p.InStep) {c : Conn} (hc : p.server.conns.find? fd = some c)
    {ev : Events} (hev : ev.read = (p.channel fd).events.read) : (p.setEvents fd ev).InStep := by
  obtain ⟨hsync, hevents, hserver, hothers⟩ := setEvents_spec (h.ready hc) ev
  refine ⟨fun k c' hk => ?_, fun k hk => ?_⟩
  · rw [hserver] at hk
    obtain ⟨hsync0, hread0⟩ := h.synced k c' hk
    by_cases hkf : k = fd
    · rw [hkf] at hread0 ⊢
      exact ⟨hsync, by rw [hread0, hevents, hev]⟩
    · obtain ⟨hch, hep⟩ := hothers k hkf
      rw [hch, hep]
      exact ⟨hsync0, hread0⟩
  · rw [hserver] at hk
    have hkf : k ≠ fd := by
      intro hkf
      rw [hkf, hc] at hk
      cases hk
    rw [(hothers k hkf).2]
    exact h.absent k hk

theorem writeInterest_spec (h : p.InStep) {c : Conn} (hc : p.server.conns.find? fd = some c)
    (n : Int32) :
    (p.writeInterest fd n).InStep ∧ (p.writeInterest fd n).server = p.server ∧
      ((p.writeInterest fd n).channel fd).events.read = (p.channel fd).events.read := by
  unfold writeInterest
  split_ifs
  · obtain ⟨_, hev, hserver, _⟩ := setEvents_spec (h.ready hc)
      { (p.channel fd).events with write := true }
    exact ⟨inStep_setEvents h hc rfl, hserver, by rw [enableWrite, hev]⟩
  · obtain ⟨_, hev, hserver, _⟩ := setEvents_spec (h.ready hc)
      { (p.channel fd).events with write := false }
    exact ⟨inStep_setEvents h hc rfl, hserver, by rw [disableWrite, hev]⟩
  · exact ⟨h, rfl, rfl⟩

/-- One iteration of the loop. -/
theorem arrivedMsg_spec (h : p.InStep) {c : Conn} (hc : p.server.conns.find? fd = some c)
    {a : ArrivedMsg} (hok : p.arrivedMsg fd a = .ok p') :
    p'.InStep ∧ (∃ c', p'.server.conns.find? fd = some c') ∧
      ((p'.channel fd).events.read = true ↔
        (p.channel fd).events.read = true ∧ p.server.closes fd a.message = .none) := by
  obtain ⟨p1, hp1, hok⟩ := Except.bind_eq_ok.mp hok
  rw [Except.pure_eq_ok] at hok
  subst hok
  obtain ⟨hstep, ⟨c', hc'⟩, hread⟩ := proc_spec h hc hp1
  obtain ⟨hstep', hserver, hread'⟩ := writeInterest_spec hstep hc' a.outBufferSize
  refine ⟨hstep', ⟨c', by rw [hserver]; exact hc'⟩, ?_⟩
  rw [hread', hread]

/-- No message of the call closes another connection, in the state it is handled in. -/
def Quiet (fd : ℕ) : Poller → List ArrivedMsg → Prop
  | _, [] => True
  | p, a :: as => p.server.closes fd a.message = .none ∧ ∀ p', p.arrivedMsg fd a = .ok p' → p'.Quiet fd as

/-- The whole call. -/
theorem handleArrivedMsg_spec {as : List ArrivedMsg} (h : p.InStep) {c : Conn}
    (hc : p.server.conns.find? fd = some c) (hok : p.handleArrivedMsg fd as = .ok p') :
    p'.InStep ∧ (∃ c', p'.server.conns.find? fd = some c') ∧
      ((p'.channel fd).events.read = true ↔
        (p.channel fd).events.read = true ∧ p.Quiet fd as) := by
  induction as generalizing p c with
  | nil =>
    obtain rfl := Except.ok.inj hok
    exact ⟨h, ⟨c, hc⟩, by simp [Quiet]⟩
  | cons a as ih =>
    obtain ⟨p1, hp1, hok⟩ := Except.bind_eq_ok.mp hok
    obtain ⟨hstep, ⟨c1, hc1⟩, hread⟩ := arrivedMsg_spec h hc hp1
    obtain ⟨hstep', hthere, hread'⟩ := ih hstep hc1 hok
    refine ⟨hstep', hthere, ?_⟩
    have hquiet : p.Quiet fd (a :: as) ↔ p.server.closes fd a.message = .none ∧ p1.Quiet fd as := by
      rw [Quiet]
      refine and_congr_right fun _ => ⟨fun hall => hall p1 hp1, fun hq p2 hp2 => ?_⟩
      rw [hp1] at hp2
      rw [← Except.ok.inj hp2]
      exact hq
    rw [hread', hread, hquiet, and_assoc]

/-- The messages of the call one after the other. -/
theorem handleArrivedMsg_append {as bs : List ArrivedMsg} :
    p.handleArrivedMsg fd (as ++ bs) = .ok p' ↔
      ∃ p1, p.handleArrivedMsg fd as = .ok p1 ∧ p1.handleArrivedMsg fd bs = .ok p' := by
  induction as generalizing p with
  | nil => simp [handleArrivedMsg]
  | cons a as ih =>
    rw [List.cons_append, handleArrivedMsg, handleArrivedMsg, Except.bind_eq_ok,
      exists_congr fun p1 => and_congr_right fun _ => ih]
    constructor
    · rintro ⟨p1, hp1, p2, hp2, hok⟩
      exact ⟨p2, Except.bind_eq_ok.mpr ⟨p1, hp1, hp2⟩, hok⟩
    · rintro ⟨p2, h, hok⟩
      obtain ⟨p1, hp1, hp2⟩ := Except.bind_eq_ok.mp h
      exact ⟨p1, hp1, p2, hp2, hok⟩

/-! ### The connection a proxy remembers -/

theorem server_arrivedMsg {c : Conn} (h : p.InStep) (hc : p.server.conns.find? fd = some c)
    {a : ArrivedMsg} (hok : p.arrivedMsg fd a = .ok p') :
    ∃ ms, p.server.proc a.puts fd a.message = .ok (p'.server, ms) := by
  obtain ⟨p1, hp1, hok⟩ := Except.bind_eq_ok.mp hok
  rw [Except.pure_eq_ok] at hok
  subst hok
  obtain ⟨hstep, ⟨c', hc'⟩, _⟩ := proc_spec h hc hp1
  rw [(writeInterest_spec hstep hc' _).2.1]
  obtain ⟨⟨s, ms⟩, hs, hp1⟩ := Except.bind_eq_ok.mp hp1
  refine ⟨ms, hs.trans ?_⟩
  cases hclose : p.server.closes fd a.message with
  | none =>
    rw [hclose] at hp1
    rw [← Except.ok.inj hp1]
  | some iFd =>
    rw [hclose] at hp1
    rw [← Except.ok.inj hp1]

/-- A proxy that remembers this connection goes on remembering it during the call. -/
theorem proxyConnFd_handleArrivedMsg {as : List ArrivedMsg} {x : UInt32} (h : p.InStep)
    {c : Conn} (hc : p.server.conns.find? fd = some c)
    (hx : p.server.proxyConnFd x = some fd) (hok : p.handleArrivedMsg fd as = .ok p') :
    p'.server.proxyConnFd x = some fd := by
  induction as generalizing p c with
  | nil =>
    obtain rfl := Except.ok.inj hok
    exact hx
  | cons a as ih =>
    obtain ⟨p1, hp1, hok⟩ := Except.bind_eq_ok.mp hok
    obtain ⟨hstep, ⟨c1, hc1⟩, _⟩ := arrivedMsg_spec h hc hp1
    obtain ⟨ms, hproc⟩ := server_arrivedMsg h hc hp1
    refine ih hstep hc1 ?_ hok
    by_cases hm : ∃ q, a.message = .handshake_q q
    · obtain ⟨q, hq⟩ := hm
      rw [hq] at hproc
      by_cases hlead : p.server.role = .Leader
      · rw [(Registry.handshakeQ_links hc hlead hproc).2.1]
        split_ifs
        · rfl
        · exact hx
      · rw [Registry.handshakeQ_of_not_leader hlead hproc]
        exact hx
    · rw [(RaftServer.proc_other (fun q hq => hm ⟨q, hq⟩) hproc).2]
      exact hx

/-! ## Runs -/

theorem inStep_init (h : polling.init p) : p.InStep := by
  obtain ⟨⟨put, disk, port, id, hs⟩, hepoll⟩ := h
  refine ⟨fun k c hk => ?_, fun k _ => hepoll k⟩
  rw [RaftServer.launchStart_eq_ok hs, RaftServer.appendCfgLog] at hk
  split_ifs at hk <;> cases hk

/-- The channel of a new connection. -/
theorem newConn_spec (hfree : p.epoll fd = .none) :
    Synced ((p.newConn fd).channel fd) ((p.newConn fd).epoll fd) ∧
      ((p.newConn fd).channel fd).events.read = true ∧ (p.newConn fd).server = p.server ∧
      ∀ k, k ≠ fd → (p.newConn fd).channel k = p.channel k ∧ (p.newConn fd).epoll k = p.epoll k := by
  let p0 : Poller := { p with channel := Function.update p.channel fd ⟨.none, .iIsNew⟩ }
  have hready : p0.Ready fd := by
    refine Or.inr ⟨?_, hfree⟩
    show (Function.update p.channel fd ⟨.none, .iIsNew⟩ fd).status = _
    rw [Function.update_self]
  obtain ⟨hsync1, _, hserver1, hothers1⟩ :=
    setEvents_spec hready { (p0.channel fd).events with write := false }
  obtain ⟨hsync2, hev2, hserver2, hothers2⟩ := setEvents_spec (Or.inl hsync1)
    { ((p0.disableWrite fd).channel fd).events with read := true }
  refine ⟨hsync2, ?_, hserver2.trans hserver1, fun k hk => ?_⟩
  · exact congrArg Events.read hev2
  · obtain ⟨hch1, hep1⟩ := hothers1 k hk
    obtain ⟨hch2, hep2⟩ := hothers2 k hk
    exact ⟨hch2.trans (hch1.trans (Function.update_of_ne hk _ _)), hep2.trans hep1⟩

theorem inStep_accept (h : p.InStep) {addr : Bytes} (hfree : p.server.conns.find? fd = .none)
    (hok : p.handle (.accept fd addr) = .ok p') : p'.InStep := by
  obtain ⟨hsync, hread, hserver, hothers⟩ := newConn_spec (h.absent fd hfree)
  obtain rfl := Except.ok.inj hok
  have hfind : ∀ k, ((p.newConn fd).server.accept fd addr).conns.find? k =
      if k = fd then some ⟨addr, 0, .none, true⟩ else p.server.conns.find? k := by
    intro k
    rw [hserver]
    exact OrdMap.find?_insert _ _ _ _
  refine ⟨fun k c hk => ?_, fun k hk => ?_⟩
  · change ((p.newConn fd).server.accept fd addr).conns.find? k = _ at hk
    rw [hfind] at hk
    split_ifs at hk with hkf
    · rw [hkf, ← Option.some.inj hk]
      exact ⟨hsync, hread.symm⟩
    · show Synced ((p.newConn fd).channel k) ((p.newConn fd).epoll k) ∧
        c.reading = ((p.newConn fd).channel k).events.read
      rw [(hothers k hkf).1, (hothers k hkf).2]
      exact h.synced k c hk
  · change ((p.newConn fd).server.accept fd addr).conns.find? k = _ at hk
    rw [hfind] at hk
    split_ifs at hk with hkf
    exact (hothers k hkf).2.trans (h.absent k hk)

theorem inStep_close (h : p.InStep) {c : Conn} (hc : p.server.conns.find? fd = some c)
    (hok : p.handle (.close fd) = .ok p') : p'.InStep := by
  obtain ⟨_, _, hserver, _⟩ := setEvents_spec (h.ready hc) .none
  change (p.disableAll fd).server = _ at hserver
  rw [handle, hserver, RaftServer.offlineConn, hc] at hok
  obtain rfl := Except.ok.inj hok
  refine inStep_disableAll h hc fun k => ?_
  show ((p.server.conns.erase fd).find? k).map Conn.reading = _
  rw [OrdMap.find?_erase]
  by_cases hk : k = fd
  · simp [hk]
  · simp [hk]

theorem inStep_next {e : PollEvent} (h : p.InStep) (hn : p.next e = some p') : p'.InStep := by
  rw [next, Option.ite_none_right_eq_some, Except.toOption_eq_some] at hn
  obtain ⟨hen, hok⟩ := hn
  cases e with
  | accept fd addr => exact inStep_accept h (by simpa [enabled] using hen) hok
  | close fd =>
    obtain ⟨c, hc⟩ := Option.isSome_iff_exists.mp hen
    exact inStep_close h hc hok
  | arrived fd msgs =>
    rw [enabled, Bool.and_eq_true] at hen
    obtain ⟨c, hc⟩ := Option.isSome_iff_exists.mp hen.1
    exact (handleArrivedMsg_spec h hc hok).1
  | sentAll fd =>
    rw [enabled, Bool.and_eq_true] at hen
    obtain ⟨c, hc⟩ := Option.isSome_iff_exists.mp hen.1
    obtain rfl := Except.ok.inj hok
    exact inStep_setEvents h hc rfl

/-- **In step.** In every run the kernel watches what the channels say, and a connection reads
exactly if the kernel watches it for input. -/
theorem synced_of_reachable {C : Poller → PollEvent → Prop} (h : polling.Reachable C p) :
    p.InStep ∧ ∀ fd c, p.server.conns.find? fd = some c →
      (p.epoll fd).any Events.read = c.reading := by
  have hstep : p.InStep := h.invariant (I := InStep) (fun _ => inStep_init)
    fun _ _ _ _ hi _ hn => inStep_next hi hn
  refine ⟨hstep, fun fd c hc => ?_⟩
  obtain ⟨hsync, hread⟩ := hstep.synced fd c hc
  rw [hsync.read, hread]

/-- **Heard.** A handshake that the leader answers with `true`, wherever it stands among the
messages of one call, leaves its connection registered, tied to the node's proxy and watched
for input if and only if no message of that call closes another connection. -/
theorem heard_iff (pre : List ArrivedMsg) {post : List ArrivedMsg} {a : ArrivedMsg} {q : HandshakeQ} {p1 : Poller}
    (h : polling.Reachable System.anyStep p)
    (hen : p.enabled (.arrived fd (pre ++ a :: post)) = true)
    (hpre : p.handleArrivedMsg fd pre = .ok p1) (hq : a.message = .handshake_q q)
    (hlead : p1.server.role = .Leader) (hok : p1.handleArrivedMsg fd (a :: post) = .ok p') :
    ((p'.server.conns.find? fd).isSome ∧ p'.server.proxyConnFd q.nodeid = some fd ∧
        (p'.epoll fd).any Events.read = true) ↔ p.Quiet fd (pre ++ a :: post) := by
  obtain ⟨hstep, hreads⟩ := synced_of_reachable h
  rw [enabled, Bool.and_eq_true] at hen
  obtain ⟨hthere, hwatched⟩ := hen
  obtain ⟨c, hc⟩ := Option.isSome_iff_exists.mp hthere
  have hread : (p.channel fd).events.read = true := by
    rw [← (hstep.synced fd c hc).1.read]
    exact hwatched
  -- the whole call, for the connection and its channel
  have hall := handleArrivedMsg_append.mpr ⟨p1, hpre, hok⟩
  obtain ⟨hstep', ⟨c', hc'⟩, hread'⟩ := handleArrivedMsg_spec hstep hc hall
  have hkernel : (p'.epoll fd).any Events.read = true ↔ p.Quiet fd (pre ++ a :: post) := by
    rw [(hstep'.synced fd c' hc').1.read, hread', and_iff_right hread]
  -- from the handshake on, for the proxy
  have hproxy : p'.server.proxyConnFd q.nodeid = some fd := by
    obtain ⟨hstep1, ⟨c1, hc1⟩, _⟩ := handleArrivedMsg_spec hstep hc hpre
    obtain ⟨p2, hp2, hok2⟩ := Except.bind_eq_ok.mp hok
    obtain ⟨hstep2, ⟨c2, hc2⟩, _⟩ := arrivedMsg_spec hstep1 hc1 hp2
    obtain ⟨ms, hproc⟩ := server_arrivedMsg hstep1 hc1 hp2
    rw [hq] at hproc
    refine proxyConnFd_handleArrivedMsg hstep2 hc2 ?_ hok2
    rw [(Registry.handshakeQ_links hc1 hlead hproc).2.1, if_pos rfl]
  rw [hc', and_iff_right Option.isSome_some, and_iff_right hproxy, hkernel]

/-- Node 1 has been started and has no connection yet. -/
def launched : Poller where
  server := Registry.launched.server
  channel _ := ⟨.none, .iIsNew⟩
  epoll _ := .none

theorem reachable_launched {C : Poller → PollEvent → Prop} : polling.Reachable C launched :=
  System.reachable_init ⟨⟨⟨true, []⟩, ⟨Option.none, .empty⟩, 7777, 1, rfl⟩, fun _ => rfl⟩

/-- Node 2 presents itself, and the answer goes out at once. -/
def helloTwo : ArrivedMsg := ⟨.allOk, .handshake_q ⟨7778, 2⟩, 0⟩

/-- A new node is heard. -/
theorem heard_new : ∃ p p' : Poller, p.handle (.arrived 5 [helloTwo]) = .ok p' ∧
    (p'.epoll 5).any Events.read = true := by
  obtain ⟨p, hp, ht⟩ := System.exists_of_run [.accept 5 []]
    (fun p : Poller => p.enabled (.arrived 5 [helloTwo]) &&
      decide (p.server.role = .Leader) && decide (p.server.closes 5 helloTwo.message = .none) &&
      (p.handle (.arrived 5 [helloTwo])).toOption.isSome)
    reachable_launched (System.allowed_anyStep _ _) (by decide +kernel)
  simp only [Bool.and_eq_true, decide_eq_true_iff] at ht
  obtain ⟨⟨⟨hen, hlead⟩, hclose⟩, hsome⟩ := ht
  cases hok : p.handle (.arrived 5 [helloTwo]) with
  | error f =>
    rw [hok] at hsome
    cases hsome
  | ok p' =>
    refine ⟨p, p', hok, ?_⟩
    have hiff := heard_iff [] hp hen rfl rfl hlead hok
    exact (hiff.mpr ⟨hclose, fun _ _ => trivial⟩).2.2

/-- Node 2 comes back while its first connection is open, and is not heard. -/
theorem deaf_after_reconnect : ¬ ∀ p, polling.Reachable System.anyStep p → ∀ fd a q p',
    p.enabled (.arrived fd [a]) = true → a.message = .handshake_q q →
    p.server.role = .Leader → p.handle (.arrived fd [a]) = .ok p' →
    (p'.epoll fd).any Events.read = true := by
  intro hall
  obtain ⟨p, hp, ht⟩ := System.exists_of_run
    [.accept 5 [], .arrived 5 [helloTwo], .accept 6 []]
    (fun p : Poller => p.enabled (.arrived 6 [helloTwo]) && decide (p.server.role = .Leader) &&
      (p.handle (.arrived 6 [helloTwo])).toOption.any fun p' : Poller =>
        !(p'.epoll 6).any Events.read)
    reachable_launched (System.allowed_anyStep _ _) (by decide +kernel)
  simp only [Bool.and_eq_true, decide_eq_true_iff] at ht
  obtain ⟨⟨hen, hlead⟩, hdeaf⟩ := ht
  cases hok : p.handle (.arrived 6 [helloTwo]) with
  | error f =>
    rw [hok] at hdeaf
    cases hdeaf
  | ok p' =>
    have hheard := hall p hp 6 helloTwo _ p' hen rfl hlead hok
    rw [hok] at hdeaf
    change (!(p'.epoll 6).any Events.read) = true at hdeaf
    rw [hheard] at hdeaf
    cases hdeaf

end Poller
end NanoRaft
