import NanoRaft.Registry

/-!
# One tick of the event loop

`EventLoop::Loop` walks over the channels that the poller has reported, and
`Channel::HandleEvent` looks at the event mask of a channel once for each kind of event,
between the callbacks. A channel belongs to its connection and is destroyed with it when
`OfflineConn` takes the connection out of the map, so a channel must not be consulted after
that. The list holds pointers: a channel in it is that of one connection object, whatever
becomes of the number.

* `tick_safe_iff`: which ticks consult no channel of a removed connection.
-/

namespace NanoRaft

/-- `m_iRevents_`: `EPOLLHUP`, `EPOLLIN` or `EPOLLPRI`, and `EPOLLOUT`. `EPOLLERR` is looked
at like the others, but no connection sets a callback for it. -/
structure Mask where
  hup : Bool
  readable : Bool
  writable : Bool

/-- What `recv` meets, if the read callback of the connection is called. -/
inductive Received where
  /-- The peer has closed: `recv` returns 0. -/
  | closed
  /-- Bytes that complete these messages. -/
  | messages (msgs : List (Puts × Message))
  /-- `recv` returns -1. -/
  | failed

/-- An element of `m_stActiveChannels_`. -/
inductive Active where
  /-- The channel of a connection object. -/
  | conn (o : ConnId) (mask : Mask) (received : Received)
  /-- The listening channel; `accept4` may return a number that is not in use. -/
  | listener (accepted : Option (ℕ × Bytes))
  /-- A timer, whose callback neither makes nor removes a connection. -/
  | timer

/-- How a tick can go wrong. -/
inductive TickFault where
  /-- The channel of a removed connection is consulted. -/
  | dangling (o : ConnId)
  /-- A message handler does not come back. -/
  | handler (f : Fault)

namespace Registry

/-- `Proc` on connection `fd`. -/
def proc (r : Registry) (puts : Puts) (fd : ℕ) (m : Message) : Result Registry :=
  match m with
  | .handshake_q q => r.handle (.handshake puts fd q)
  | _ => do
    let (s, _) ← r.server.proc puts fd m
    pure { r with server := s }

/-- `HandleArrivedMsg` over the messages that are complete. -/
def handleArrivedMsg (r : Registry) (fd : ℕ) : List (Puts × Message) → Result Registry
  | [] => .ok r
  | (puts, m) :: ms => do
    let r ← r.proc puts fd m
    r.handleArrivedMsg fd ms

/-- `RecvCallback`. -/
def recvCallback (r : Registry) (fd : ℕ) : Received → Result Registry
  | .closed => r.handle (.close fd)
  | .messages msgs => r.handleArrivedMsg fd msgs
  | .failed => .ok r

/-- `SendCallback` moves the output buffer and removes nothing. -/
def sendCallback (r : Registry) (_ : ℕ) : Result Registry := .ok r

/-- The channel of `o` is looked at. -/
def consult (r : Registry) (o : ConnId) : Except TickFault Unit :=
  if r.Live o then .ok () else .error (.dangling o)

/-- A handler's fault ends the tick. -/
def call (x : Result Registry) : Except TickFault Registry := x.mapError .handler

/-- The callback of one kind of event, if it was reported; the channel is looked at to tell. -/
def callback (r : Registry) (o : ConnId) (reported : Bool) (x : Result Registry) :
    Except TickFault Registry := do
  r.consult o
  if reported then call x else pure r

/-- `HandleEvent`: the hang-up, the input and the output. -/
def handleEvent (r : Registry) : Active → Except TickFault Registry
  | .conn o mask received => do
    let r ← r.callback o mask.hup (r.handle (.close o.fd))
    let r ← r.callback o mask.readable (r.recvCallback o.fd received)
    r.callback o mask.writable (r.sendCallback o.fd)
  | .listener (some (fd, addr)) =>
    call (if (r.server.conns.find? fd).isNone then r.handle (.accept fd addr) else .ok r)
  | .listener none => .ok r
  | .timer => .ok r

/-- The loop over the active channels. -/
def tick (r : Registry) : List Active → Except TickFault Registry
  | [] => .ok r
  | a :: as => do
    let r ← r.handleEvent a
    r.tick as

/-! ## Which connections a tick closes on another's behalf -/

/-- The numbers that the messages of one call close. -/
def closedByMsgs (r : Registry) (fd : ℕ) : List (Puts × Message) → List ℕ
  | [] => []
  | (puts, m) :: ms => (r.server.closes fd m).toList ++
    match r.proc puts fd m with
    | .ok r' => r'.closedByMsgs fd ms
    | .error _ => []

/-- The numbers that the handshakes of one active channel close. -/
def closedByActive (r : Registry) : Active → List ℕ
  | .conn o mask (.messages msgs) => if mask.readable then r.closedByMsgs o.fd msgs else []
  | _ => []

/-- The numbers that the handshakes of a tick close. -/
def closedByTick (r : Registry) : List Active → List ℕ
  | [] => []
  | a :: as => r.closedByActive a ++
    match r.handleEvent a with
    | .ok r' => r'.closedByTick as
    | .error _ => []

/-- No peer closes or resets its connection, and no handshake of the tick has closed a
connection whose channel comes up later. -/
def Undisturbed (r : Registry) (as : List Active) : Prop :=
  ∀ pre o mask received post, as = pre ++ .conn o mask received :: post →
    ∀ r', r.tick pre = .ok r' →
      mask.hup = false ∧ (mask.readable = true → received ≠ .closed) ∧
        o.fd ∉ r.closedByTick pre

/-- The connections of some active channels. -/
def AllLive (r : Registry) (as : List Active) : Prop :=
  ∀ o mask received, .conn o mask received ∈ as → r.Live o

/-! ## Objects end once -/

variable {r r' r'' : Registry} {o : ConnId} {fd : ℕ} {closed closed' : List ℕ}

/-- What a step does to the objects: an object that is there ends if its number is among those
that are closed, and one that has ended does not come back. -/
structure Ends (r r' : Registry) (closed : List ℕ) : Prop where
  gen_le : ∀ k, r.gen k ≤ r'.gen k
  gone : ∀ o, o.gen ≤ r.gen o.fd → ¬ r.Live o → ¬ r'.Live o
  live : ∀ o, r.Live o → (r'.Live o ↔ o.fd ∉ closed)

theorem Ends.refl (r : Registry) : Ends r r [] :=
  ⟨fun _ => le_refl _, fun _ _ h => h, fun o h => by simp [h]⟩

theorem Ends.trans (h : Ends r r' closed) (h' : Ends r' r'' closed') :
    Ends r r'' (closed ++ closed') := by
  refine ⟨fun k => (h.gen_le k).trans (h'.gen_le k), fun o hle hdead => ?_, fun o hlive => ?_⟩
  · exact h'.gone o (hle.trans (h.gen_le o.fd)) (h.gone o hle hdead)
  · rw [List.mem_append, not_or]
    by_cases hmid : r'.Live o
    · rw [h'.live o hmid, and_iff_right ((h.live o hlive).mp hmid)]
    · -- it has ended on the way
      have hdead := h'.gone o (hlive.1.le.trans (h.gen_le o.fd)) hmid
      exact iff_of_false hdead fun hboth => hmid ((h.live o hlive).mpr hboth.1)

/-- A step that makes no connection. -/
theorem ends_of_conns (hgen : r'.gen = r.gen)
    (hconns : ∀ k, (r'.server.conns.find? k).isSome =
      ((r.server.conns.find? k).isSome && decide (k ∉ closed))) : Ends r r' closed := by
  have hlive : ∀ o, r'.Live o ↔ r.Live o ∧ o.fd ∉ closed := by
    intro o
    rw [Live, Live, hgen, hconns]
    simp [and_assoc]
  refine ⟨fun k => by rw [hgen], fun o _ hdead h => hdead ((hlive o).mp h).1, fun o h => ?_⟩
  rw [hlive, and_iff_right h]

/-- The close of an object that is there comes back, and ends it. -/
theorem handle_close (h : r.Live o) :
    ∃ r', r.handle (.close o.fd) = .ok r' ∧ ¬ r'.Live o := by
  obtain ⟨c, hc⟩ := Option.isSome_iff_exists.mp h.2
  refine ⟨_, by rw [handle, RaftServer.offlineConn, hc]; rfl, fun hlive => ?_⟩
  have hthere := hlive.2
  change ((r.server.conns.erase o.fd).find? o.fd).isSome = true at hthere
  rw [OrdMap.find?_erase, if_pos rfl] at hthere
  cases hthere

theorem ends_accept {addr : Bytes} (hfree : r.server.conns.find? fd = none)
    (h : r.handle (.accept fd addr) = .ok r') : Ends r r' [] := by
  obtain rfl := Except.ok.inj h
  have hgen : ∀ k, Function.update r.gen fd (r.gen fd + 1) k =
      if k = fd then r.gen fd + 1 else r.gen k := fun k => Function.update_apply _ _ _ _
  have hfind : ∀ k, (r.server.accept fd addr).conns.find? k =
      if k = fd then some ⟨addr, 0, none, true⟩ else r.server.conns.find? k :=
    fun k => OrdMap.find?_insert _ _ _ _
  refine ⟨fun k => ?_, fun o hle hdead hlive => ?_, fun o hlive => ?_⟩
  · show r.gen k ≤ Function.update r.gen fd (r.gen fd + 1) k
    rw [hgen]
    split_ifs with hk
    · rw [hk]
      omega
    · exact le_refl _
  · obtain ⟨hg, hthere⟩ := hlive
    change o.gen = Function.update r.gen fd (r.gen fd + 1) o.fd at hg
    change ((r.server.accept fd addr).conns.find? o.fd).isSome = true at hthere
    rw [hgen] at hg
    rw [hfind] at hthere
    split_ifs at hg hthere with hk
    · rw [hk] at hle
      omega
    · exact hdead ⟨hg, hthere⟩
  · have hk : o.fd ≠ fd := by
      intro hk
      have hthere := hlive.2
      rw [hk, hfree] at hthere
      cases hthere
    refine iff_of_true ⟨?_, ?_⟩ List.not_mem_nil
    · show o.gen = Function.update r.gen fd (r.gen fd + 1) o.fd
      rw [hgen, if_neg hk]
      exact hlive.1
    · show ((r.server.accept fd addr).conns.find? o.fd).isSome = true
      rw [hfind, if_neg hk]
      exact hlive.2

/-! ## The messages of one call -/

theorem ends_handshake {puts : Puts} {q : HandshakeQ}
    (hthere : (r.server.conns.find? fd).isSome)
    (h : r.handle (.handshake puts fd q) = .ok r') :
    Ends r r' (r.server.replaced fd q).toList := by
  obtain ⟨c, hc⟩ := Option.isSome_iff_exists.mp hthere
  obtain ⟨⟨s, ms⟩, hs, h⟩ := Except.bind_eq_ok.mp h
  rw [Except.pure_eq_ok] at h
  subst h
  refine ends_of_conns rfl fun k => ?_
  show (s.conns.find? k).isSome = _
  rw [handshakeQ_registered hc hs]
  simp

/-- A message ends the connection it closes. -/
theorem ends_proc {puts : Puts} {m : Message} (hthere : (r.server.conns.find? fd).isSome)
    (h : r.proc puts fd m = .ok r') : Ends r r' (r.server.closes fd m).toList := by
  cases m with
  | handshake_q q => exact ends_handshake hthere h
  | handshake_r | appendentries_q | appendentries_r =>
    obtain ⟨⟨s, ms⟩, hs, h⟩ := Except.bind_eq_ok.mp h
    rw [Except.pure_eq_ok] at h
    subst h
    refine ends_of_conns rfl fun k => ?_
    show (s.conns.find? k).isSome = _
    rw [(RaftServer.proc_other (by simp) hs).1]
    simp [RaftServer.closes]

/-- The messages of one call end the connections they close, and not the one they came on. -/
theorem ends_handleArrivedMsg {msgs : List (Puts × Message)} (hlive : r.Live o)
    (h : r.handleArrivedMsg o.fd msgs = .ok r') :
    Ends r r' (r.closedByMsgs o.fd msgs) ∧ r'.Live o := by
  induction msgs generalizing r with
  | nil =>
    obtain rfl := Except.ok.inj h
    exact ⟨Ends.refl r, hlive⟩
  | cons x msgs ih =>
    obtain ⟨puts, m⟩ := x
    obtain ⟨r1, h1, h⟩ := Except.bind_eq_ok.mp h
    have hends := ends_proc hlive.2 h1
    have hlive1 : r1.Live o := by
      rw [hends.live o hlive, Option.mem_toList]
      exact fun heq => RaftServer.closes_ne heq rfl
    obtain ⟨hends', hlive'⟩ := ih hlive1 h
    refine ⟨?_, hlive'⟩
    rw [closedByMsgs, h1]
    exact hends.trans hends'

/-! ## One active channel -/

/-- The channel of an object that is gone cannot be looked at. -/
theorem callback_of_gone {reported : Bool} {x : Result Registry} (h : ¬ r.Live o) :
    r.callback o reported x = .error (.dangling o) := by
  rw [callback, consult, if_neg h]
  rfl

theorem callback_of_live {reported : Bool} {x : Result Registry} (h : r.Live o) :
    r.callback o reported x = if reported then call x else pure r := by
  rw [callback, consult, if_pos h]
  rfl

/-- The write callback comes back to a connection that is there. -/
theorem callback_send {reported : Bool} (h : r.Live o) :
    r.callback o reported (r.sendCallback o.fd) = .ok r := by
  rw [callback_of_live h]
  split_ifs
  · rfl
  · rfl

/-- The channel of a connection that is gone, or that its peer has closed or reset. -/
theorem handleEvent_dangling {mask : Mask} {received : Received}
    (h : ¬ r.Live o ∨ mask.hup = true ∨ (mask.readable = true ∧ received = .closed)) :
    r.handleEvent (.conn o mask received) = .error (.dangling o) := by
  rw [handleEvent]
  by_cases hlive : r.Live o
  · obtain ⟨r1, h1, hdead⟩ := handle_close hlive
    rw [callback_of_live hlive, h1]
    by_cases hhup : mask.hup = true
    · -- the mask is looked at again after the close callback
      rw [if_pos hhup]
      show (r1.callback o mask.readable _ >>= _) = _
      rw [callback_of_gone hdead]
      rfl
    · have hclosed := (h.resolve_left (not_not.mpr hlive)).resolve_left hhup
      rw [if_neg hhup, Except.pure_bind_ok, callback_of_live hlive, if_pos hclosed.1, hclosed.2,
        recvCallback, h1]
      show r1.callback o mask.writable _ = _
      exact callback_of_gone hdead
  · rw [callback_of_gone hlive]
    rfl

/-- The other channels of connections: the handler comes back or ends the tick, and the
connection is still there. -/
theorem handleEvent_calm {mask : Mask} {received : Received} (hlive : r.Live o)
    (hhup : mask.hup = false) (hopen : mask.readable = true → received ≠ .closed) :
    (∃ f, r.handleEvent (.conn o mask received) = .error (.handler f)) ∨
      ∃ r', r.handleEvent (.conn o mask received) = .ok r' ∧
        Ends r r' (r.closedByActive (.conn o mask received)) := by
  rw [handleEvent, callback_of_live hlive, hhup, if_neg (by simp), Except.pure_bind_ok,
    callback_of_live hlive]
  by_cases hread : mask.readable = true
  · rw [if_pos hread]
    cases received with
    | closed => exact absurd rfl (hopen hread)
    | failed =>
      refine Or.inr ⟨r, callback_send hlive, Ends.refl r⟩
    | messages msgs =>
      rw [recvCallback, closedByActive, if_pos hread]
      cases hmsgs : r.handleArrivedMsg o.fd msgs with
      | error f => exact Or.inl ⟨f, rfl⟩
      | ok r1 =>
        obtain ⟨hends, hlive1⟩ := ends_handleArrivedMsg hlive hmsgs
        exact Or.inr ⟨r1, callback_send hlive1, hends⟩
  · rw [if_neg hread, Except.pure_bind_ok]
    refine Or.inr ⟨r, callback_send hlive, ?_⟩
    -- nothing was received
    have hnil : r.closedByActive (.conn o mask received) = [] := by
      cases received with
      | closed | failed => rfl
      | messages msgs => rw [closedByActive, if_neg hread]
    rw [hnil]
    exact Ends.refl r

/-- Listening and timers end nothing. -/
theorem handleEvent_other {a : Active} (ha : ∀ o mask received, a ≠ .conn o mask received) :
    (∃ f, r.handleEvent a = .error (.handler f)) ∨
      ∃ r', r.handleEvent a = .ok r' ∧ Ends r r' (r.closedByActive a) := by
  cases a with
  | conn o mask received => exact absurd rfl (ha o mask received)
  | timer => exact Or.inr ⟨r, rfl, Ends.refl r⟩
  | listener accepted =>
    cases accepted with
    | none => exact Or.inr ⟨r, rfl, Ends.refl r⟩
    | some x =>
      obtain ⟨fd, addr⟩ := x
      rw [handleEvent]
      split_ifs with hfree
      · exact Or.inr ⟨_, rfl, ends_accept (Option.isNone_iff_eq_none.mp hfree) rfl⟩
      · exact Or.inr ⟨r, rfl, Ends.refl r⟩

/-! ## The tick -/

/-- Everything one active channel can do. -/
theorem handleEvent_cases (r : Registry) (a : Active) :
    (∃ o mask received, a = .conn o mask received ∧ r.handleEvent a = .error (.dangling o) ∧
      (¬ r.Live o ∨ mask.hup = true ∨ (mask.readable = true ∧ received = .closed))) ∨
    (∃ f, r.handleEvent a = .error (.handler f)) ∨
    ∃ r', r.handleEvent a = .ok r' ∧ Ends r r' (r.closedByActive a) := by
  by_cases ha : ∃ o mask received, a = .conn o mask received
  · obtain ⟨o, mask, received, rfl⟩ := ha
    by_cases hbad : ¬ r.Live o ∨ mask.hup = true ∨ (mask.readable = true ∧ received = .closed)
    · exact Or.inl ⟨o, mask, received, rfl, handleEvent_dangling hbad, hbad⟩
    · simp only [not_or, not_not, not_and, Bool.not_eq_true] at hbad
      exact Or.inr (handleEvent_calm hbad.1 hbad.2.1 hbad.2.2)
  · exact Or.inr (handleEvent_other fun o mask received heq => ha ⟨o, mask, received, heq⟩)

/-- A channel that was handled without a fault. -/
theorem ends_handleEvent {a : Active} (h : r.handleEvent a = .ok r') :
    Ends r r' (r.closedByActive a) := by
  rcases handleEvent_cases r a with ⟨o, _, _, _, hf, _⟩ | ⟨f, hf⟩ | ⟨r1, h1, hends⟩
  · rw [hf] at h
    cases h
  · rw [hf] at h
    cases h
  · rw [h1] at h
    rw [← Except.ok.inj h]
    exact hends

/-- The connections that a tick has ended so far are those its handshakes have closed. -/
theorem ends_tick {as : List Active} (h : r.tick as = .ok r') : Ends r r' (r.closedByTick as) := by
  induction as generalizing r with
  | nil =>
    obtain rfl := Except.ok.inj h
    exact Ends.refl r
  | cons a as ih =>
    obtain ⟨r1, h1, h⟩ := Except.bind_eq_ok.mp h
    rw [closedByTick, h1]
    exact (ends_handleEvent h1).trans (ih h)

/-- A tick consults the channel of a removed connection at some element of the list. -/
theorem tick_dangling_iff {as : List Active} :
    (∃ o, r.tick as = .error (.dangling o)) ↔ ∃ pre o mask received post r',
      as = pre ++ .conn o mask received :: post ∧ r.tick pre = .ok r' ∧
        (¬ r'.Live o ∨ mask.hup = true ∨ (mask.readable = true ∧ received = .closed)) := by
  induction as generalizing r with
  | nil =>
    refine iff_of_false ?_ ?_
    · rintro ⟨o, h⟩
      cases h
    · rintro ⟨pre, o, mask, received, post, r', has, _⟩
      exact absurd has (by simp)
  | cons a as ih =>
    constructor
    · rintro ⟨o, h⟩
      rcases Except.bind_eq_error.mp h with h | ⟨r1, h1, h⟩
      · -- at the first channel
        rcases handleEvent_cases r a with ⟨o', mask, received, rfl, _, hbad⟩ | ⟨f, hf⟩ |
          ⟨r1, h1, _⟩
        · exact ⟨[], o', mask, received, as, r, rfl, rfl, hbad⟩
        · rw [hf] at h
          cases h
        · rw [h1] at h
          cases h
      · obtain ⟨pre, o', mask, received, post, r', rfl, hpre, hbad⟩ := ih.mp ⟨o, h⟩
        exact ⟨a :: pre, o', mask, received, post, r', rfl,
          Except.bind_eq_ok.mpr ⟨r1, h1, hpre⟩, hbad⟩
    · rintro ⟨pre, o, mask, received, post, r', has, hpre, hbad⟩
      cases pre with
      | nil =>
        obtain ⟨rfl, rfl⟩ := List.cons.inj has
        obtain rfl := Except.ok.inj hpre
        exact ⟨o, Except.bind_eq_error.mpr (Or.inl (handleEvent_dangling hbad))⟩
      | cons b pre =>
        obtain ⟨rfl, rfl⟩ := List.cons.inj has
        obtain ⟨r1, h1, hpre⟩ := Except.bind_eq_ok.mp hpre
        obtain ⟨o', h⟩ := ih.mpr ⟨pre, o, mask, received, post, r', rfl, hpre, hbad⟩
        exact ⟨o', Except.bind_eq_error.mpr (Or.inr ⟨r1, h1, h⟩)⟩

/-- **No removed channel.** Over any list of channels whose connections are registered, with
any event masks and any behaviour of the handlers, a tick consults no channel of a removed
connection if and only if it is undisturbed. -/
theorem tick_safe_iff {as : List Active} (hlive : r.AllLive as) :
    (∀ o, r.tick as ≠ .error (.dangling o)) ↔ r.Undisturbed as := by
  rw [← not_exists, tick_dangling_iff]
  -- an object of the list is still there exactly if no handshake has closed its number
  have hdead : ∀ pre o mask received post r', as = pre ++ .conn o mask received :: post →
      r.tick pre = .ok r' → (¬ r'.Live o ↔ o.fd ∈ r.closedByTick pre) := by
    intro pre o mask received post r' has hr'
    have ho : r.Live o := hlive o mask received (by rw [has]; simp)
    rw [(ends_tick hr').live o ho, not_not]
  constructor
  · intro hno pre o mask received post has r' hr'
    have hgood : ¬ (¬ r'.Live o ∨ mask.hup = true ∨
        (mask.readable = true ∧ received = .closed)) :=
      fun hbad => hno ⟨pre, o, mask, received, post, r', has, hr', hbad⟩
    rw [hdead pre o mask received post r' has hr', not_or, not_or, not_and,
      Bool.not_eq_true] at hgood
    exact ⟨hgood.2.1, hgood.2.2, hgood.1⟩
  · rintro hund ⟨pre, o, mask, received, post, r', has, hr', hbad⟩
    obtain ⟨hhup, hopen, hfd⟩ := hund pre o mask received post has r' hr'
    rcases hbad with hbad | hbad | ⟨hread, hclosed⟩
    · exact hfd ((hdead pre o mask received post r' has hr').mp hbad)
    · rw [hhup] at hbad
      cases hbad
    · exact hopen hread hclosed

/-- Node 3 joins on connection 6 while connection 5 becomes writable. -/
def quietTick : List Active :=
  [.conn ⟨6, 1⟩ ⟨false, true, false⟩ (.messages [(.allOk, .handshake_q ⟨7779, 3⟩)]),
    .conn ⟨5, 1⟩ ⟨false, false, true⟩ .failed]

theorem tick_safe_two : ∃ r : Registry, r.AllLive quietTick ∧
    ∀ o, r.tick quietTick ≠ .error (.dangling o) := by
  obtain ⟨r, _, hp⟩ := System.exists_of_run [.accept 5 [], .accept 6 [], hello 5 2]
    (fun r : Registry => decide (r.Live ⟨5, 1⟩) && decide (r.Live ⟨6, 1⟩) &&
      decide (r.closedByTick (quietTick.take 1) = []))
    (System.reachable_init (S := leading) started_launched)
    (System.allowed_anyStep _ _) (by decide +kernel)
  simp only [Bool.and_eq_true, decide_eq_true_iff] at hp
  obtain ⟨⟨h5, h6⟩, hclosed⟩ := hp
  have hlive : r.AllLive quietTick := by
    intro o mask received hmem
    simp only [quietTick, List.mem_cons, Active.conn.injEq, List.not_mem_nil, or_false] at hmem
    rcases hmem with ⟨rfl, _⟩ | ⟨rfl, _⟩
    · exact h6
    · exact h5
  refine ⟨r, hlive, (tick_safe_iff hlive).mpr fun pre o mask received post has _ _ => ?_⟩
  -- either channel stands behind those of a prefix
  rcases pre with _ | ⟨a, _ | ⟨b, pre⟩⟩
  · obtain ⟨hconn, _⟩ := List.cons.inj has
    obtain ⟨_, rfl, rfl⟩ := Active.conn.inj hconn
    exact ⟨rfl, fun _ h => (by cases h), List.not_mem_nil⟩
  · obtain ⟨ha, htail⟩ := List.cons.inj has
    obtain ⟨hconn, _⟩ := List.cons.inj htail
    obtain ⟨_, rfl, rfl⟩ := Active.conn.inj hconn
    refine ⟨rfl, fun h => (by cases h), ?_⟩
    have hpre : r.closedByTick [a] = [] := by
      rw [← ha]
      exact hclosed
    rw [hpre]
    exact List.not_mem_nil
  · have hlen := congrArg List.length has
    simp [quietTick] at hlen

/-- The peer of connection 5 hangs up. -/
theorem tick_dangling : ¬ ∀ r, leading.Reachable System.anyStep r → ∀ as, r.AllLive as →
    ∀ o, r.tick as ≠ .error (.dangling o) := by
  intro hall
  obtain ⟨r, hr, hp⟩ := System.exists_of_run [.accept 5 []]
    (fun r : Registry => decide (r.Live ⟨5, 1⟩))
    (System.reachable_init (S := leading) started_launched)
    (System.allowed_anyStep _ _) (by decide +kernel)
  have h5 : r.Live ⟨5, 1⟩ := of_decide_eq_true hp
  have hlive : r.AllLive [.conn ⟨5, 1⟩ ⟨true, true, false⟩ .closed] := by
    intro o mask received hmem
    obtain ⟨rfl, _⟩ := Active.conn.inj (List.mem_singleton.mp hmem)
    exact h5
  refine hall r hr _ hlive ⟨5, 1⟩ ?_
  refine Except.bind_eq_error.mpr (Or.inl ?_)
  exact handleEvent_dangling (Or.inr (Or.inl rfl))

end Registry
end NanoRaft
