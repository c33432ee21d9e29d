import NanoRaft.Lib.Watchdog
import NanoRaft.ModApiTheorems

/-!
# The follower's heartbeat timer

`ConnectToPeer` arms the timer for 21 seconds and `Timer::FreshTime` arms it again for as long,
whatever it is asked for. `AppendEntriesQ` asks for it where it answers a heartbeat, and nowhere
else: a message with entries is answered in the same way and the timer runs on.

* `appendEntriesQ_server`: what the timed handler does to the server is what the handler does;
* `neverExpires_iff`: in which runs the timer never goes off.
-/

namespace NanoRaft

/-- The time of `m_pstTimerSpec_`, in nanoseconds. -/
def followerPeriod : ℕ := 21 * 10 ^ 9

/-- A server on a clock. -/
structure Watched where
  server : RaftServer
  now : ℕ
  /-- When the timer goes off, once it is armed. -/
  deadline : ℕ
  /-- The calls of `BecomeCandidate`. -/
  elections : ℕ

/-- Time goes by, or a message arrives. -/
inductive TimedEvent where
  | elapse (d : ℕ)
  | arrive (puts : Puts) (q : AppendEntriesQ)

/-- The time an event takes. -/
def TimedEvent.lasts : TimedEvent → ℕ
  | .elapse d => d
  | .arrive _ _ => 0

namespace Watched

/-- `RaftServer::FreshTime`, with what `timerfd_settime` does. -/
def freshTime (w : Watched) : Watched :=
  { w with server := w.server.freshTime, deadline := w.now + followerPeriod }

/-- The kernel lets the timer go off when its time has come, and the loop calls
`HeartBeatTimeoutCallback`. -/
def elapse (w : Watched) (d : ℕ) : Watched :=
  if w.server.timer = .armed ∧ w.deadline ≤ w.now + d then
    { w with server := w.server.heartBeatTimeout, now := w.now + d, elections := w.elections + 1 }
  else { w with now := w.now + d }

/-- The end of `AppendEntriesQ`. -/
def sendreponse (w : Watched) (q : AppendEntriesQ) (success isheartbeat : Bool) :
    Watched × AppendEntriesR :=
  ({ w with server := (w.server.sendreponse q success isheartbeat).1 },
    (w.server.sendreponse q success isheartbeat).2)

/-- `AppendEntriesQ` on a clock. -/
def appendEntriesQ (puts : Puts) (w : Watched) (q : AppendEntriesQ) :
    Result (Watched × AppendEntriesR) := do
  match ← w.server.checkTerm puts q with
  | none => pure (w.sendreponse q false false)
  | some s =>
    let w := { w with server := s }
    if ← s.checkPrev q then
      if q.entries.isEmpty then pure (w.freshTime.sendreponse q true true)
      else do
        let s ← s.storeEntries puts q
        pure ({ w with server := s }.sendreponse q true false)
    else pure (w.sendreponse q false false)

def next (w : Watched) : TimedEvent → Option Watched
  | .elapse d => some (w.elapse d)
  | .arrive puts q => (w.appendEntriesQ puts q).toOption.map Prod.fst

/-- The runs of a server whose timer has just been armed. -/
def timed : System Watched TimedEvent where
  init w := w.server.timer = .armed ∧ w.deadline = w.now + followerPeriod ∧ w.elections = 0
  next := next

/-- The timer has not gone off. -/
structure Unexpired (w : Watched) : Prop where
  armed : w.server.timer = .armed
  elections : w.elections = 0

/-- The message that arrives is answered with `success = true`. -/
def answers (w : Watched) : TimedEvent → Bool
  | .elapse _ => false
  | .arrive _ q => w.server.Accepts q

/-- It is answered so and has no entries. -/
def answersHeartbeat (w : Watched) : TimedEvent → Bool
  | .elapse _ => false
  | .arrive _ q => w.server.Accepts q ∧ q.entries = []

/-- The node answers `success = true` at least once in every period. -/
def Served (w : Watched) (es : List TimedEvent) : Prop :=
  Watchdog.Recurs timed TimedEvent.lasts answers followerPeriod w es

/-- It does so for a heartbeat at least once in every period. -/
def Heartbeats (w : Watched) (es : List TimedEvent) : Prop :=
  Watchdog.Recurs timed TimedEvent.lasts answersHeartbeat followerPeriod w es

/-- The timer never goes off: the server never becomes a candidate. -/
def NeverExpires (w : Watched) (es : List TimedEvent) : Prop :=
  ∀ bs u, bs <+: es → timed.run w bs = some u → u.Unexpired

variable {puts : Puts} {w w' : Watched} {q : AppendEntriesQ} {r : AppendEntriesR}
  {e : TimedEvent} {es : List TimedEvent}

/-! ## One event -/

/-- **The handler.** Without the clock it is `AppendEntriesQ`. -/
theorem appendEntriesQ_server (puts : Puts) (w : Watched) (q : AppendEntriesQ) :
    (fun x => (x.1.server, x.2)) <$> w.appendEntriesQ puts q = w.server.appendEntriesQ puts q := by
  unfold appendEntriesQ RaftServer.appendEntriesQ
  rw [map_bind]
  congr 1
  funext o
  cases o with
  | none => rfl
  | some s =>
    dsimp only
    rw [map_bind]
    congr 1
    funext b
    cases b with
    | false => rfl
    | true =>
      rw [if_pos rfl, if_pos rfl]
      split_ifs
      · rfl
      · rw [map_bind]
        rfl

theorem server_of_appendEntriesQ (h : w.appendEntriesQ puts q = .ok (w', r)) :
    w.server.appendEntriesQ puts q = .ok (w'.server, r) := by
  rw [← appendEntriesQ_server, h]
  rfl

/-- Only an accepted heartbeat moves the deadline. -/
theorem appendEntriesQ_clock (h : w.appendEntriesQ puts q = .ok (w', r)) :
    w'.now = w.now ∧ w'.elections = w.elections ∧
      w'.deadline = if w.answersHeartbeat (.arrive puts q) then w.now + followerPeriod
        else w.deadline := by
  obtain ⟨o, ho, h⟩ := Except.bind_eq_ok.mp h
  rcases RaftServer.checkTerm_cases ho with ⟨hstale, rfl⟩ | ⟨hterm, rfl⟩
  · rw [Except.pure_eq_ok] at h
    have hnot : ¬ w.server.Accepts q := fun hacc => absurd hacc.term (not_le.mpr hstale)
    rw [show w' = _ from (congrArg Prod.fst h).symm]
    simp [answersHeartbeat, hnot, sendreponse]
  · obtain ⟨b, hb, h⟩ := Except.bind_eq_ok.mp h
    have hprev : b = true ↔ w.server.PrevMatches q := RaftServer.checkPrev_eq_ok hb
    cases b with
    | false =>
      rw [if_neg Bool.false_ne_true, Except.pure_eq_ok] at h
      have hnot : ¬ w.server.Accepts q := fun hacc => Bool.false_ne_true (hprev.mpr hacc.prev)
      rw [show w' = _ from (congrArg Prod.fst h).symm]
      simp [answersHeartbeat, hnot, sendreponse]
    | true =>
      have hacc : w.server.Accepts q := ⟨hterm, hprev.mp rfl⟩
      rw [if_pos rfl] at h
      cases hes : q.entries with
      | nil =>
        rw [hes, if_pos List.isEmpty_nil, Except.pure_eq_ok] at h
        rw [show w' = _ from (congrArg Prod.fst h).symm]
        simp [answersHeartbeat, hacc, hes, sendreponse, freshTime]
      | cons x xs =>
        rw [hes, if_neg (by simp)] at h
        obtain ⟨s1, _, h⟩ := Except.bind_eq_ok.mp h
        rw [Except.pure_eq_ok] at h
        rw [show w' = _ from (congrArg Prod.fst h).symm]
        simp [answersHeartbeat, hes, sendreponse]

/-- A message leaves an armed timer armed. -/
theorem appendEntriesQ_timer {s s' : RaftServer} (h : s.appendEntriesQ puts q = .ok (s', r))
    (ha : s.timer = .armed) : s'.timer = .armed := by
  rcases RaftServer.appendEntriesQ_cases h with ⟨_, he⟩ | ⟨_, _, he⟩ | ⟨_, _, he⟩ |
    ⟨_, _, s1, hs1, he⟩
  · obtain ⟨rfl, rfl⟩ := Prod.mk.inj he
    rw [RaftServer.followCommit_frame]
    exact ha
  · obtain ⟨rfl, rfl⟩ := Prod.mk.inj he
    rw [RaftServer.followCommit_frame]
    exact ha
  · obtain ⟨rfl, rfl⟩ := Prod.mk.inj he
    rw [RaftServer.followCommit_frame]
    simp [RaftServer.freshTime, RaftServer.adoptTerm, ha]
  · obtain ⟨rfl, rfl⟩ := Prod.mk.inj he
    obtain ⟨db, logs, new, hf⟩ := RaftServer.storeEntries_frame hs1
    rw [RaftServer.followCommit_frame, hf]
    exact ha

/-- The timer has been armed `x` nanoseconds ago and has not gone off. -/
structure Ticks (x : ℕ) (w : Watched) : Prop where
  unexpired : w.Unexpired
  deadline : w.now + followerPeriod = w.deadline + x

/-- An event keeps the timer from going off exactly if it ends before the deadline. -/
theorem unexpired_next_iff {x : ℕ} (hx : Ticks x w) (hlt : x < followerPeriod)
    (h : timed.next w e = some w') :
    (w'.Unexpired ↔ (if w.answersHeartbeat e then 0 else x + e.lasts) < followerPeriod) ∧
      (w'.Unexpired → Ticks (if w.answersHeartbeat e then 0 else x + e.lasts) w') := by
  have hdeadline := hx.deadline
  cases e with
  | elapse d =>
    obtain rfl : w.elapse d = w' := Option.some.inj h
    have hiff : w.deadline ≤ w.now + d ↔ ¬ x + d < followerPeriod := by omega
    rw [show w.answersHeartbeat (.elapse d) = false from rfl, if_neg Bool.false_ne_true, elapse]
    show (_ ↔ x + d < followerPeriod) ∧ (_ → Ticks (x + d) _)
    by_cases hfires : w.deadline ≤ w.now + d
    · rw [if_pos ⟨hx.unexpired.armed, hfires⟩]
      have hexp : ¬ Unexpired { w with
          server := w.server.heartBeatTimeout, now := w.now + d, elections := w.elections + 1 } :=
        fun hu => Nat.succ_ne_zero _ hu.elections
      exact ⟨iff_of_false hexp (hiff.mp hfires), fun hu => absurd hu hexp⟩
    · rw [if_neg fun hf => hfires hf.2]
      have hu : Unexpired { w with now := w.now + d } :=
        ⟨hx.unexpired.armed, hx.unexpired.elections⟩
      refine ⟨iff_of_true hu (not_not.mp fun hn => hfires (hiff.mpr hn)), fun _ => ⟨hu, ?_⟩⟩
      show w.now + d + followerPeriod = w.deadline + (x + d)
      omega
  | arrive puts q =>
    obtain ⟨⟨w1, r⟩, hok, rfl⟩ := Option.map_eq_some_iff.mp h
    rw [Except.toOption_eq_some] at hok
    obtain ⟨hnow, hel, hdl⟩ := appendEntriesQ_clock hok
    have hu : w1.Unexpired := by
      refine ⟨appendEntriesQ_timer (server_of_appendEntriesQ hok) hx.unexpired.armed, ?_⟩
      rw [hel, hx.unexpired.elections]
    show (w1.Unexpired ↔ _) ∧ (w1.Unexpired → Ticks _ w1)
    have hlasts : (TimedEvent.arrive puts q).lasts = 0 := rfl
    rw [hlasts]
    split_ifs at hdl ⊢
    · exact ⟨iff_of_true hu (by decide), fun _ => ⟨hu, by rw [hnow, hdl]; omega⟩⟩
    · exact ⟨iff_of_true hu hlt, fun _ => ⟨hu, by rw [hnow, hdl]; omega⟩⟩

/-! ## Runs -/

/-- In a run the timer does not go off exactly if the watchdog of the heartbeats is quiet. -/
theorem neverExpires_iff_quiet {x : ℕ} {t : Watched} (hx : Ticks x w) (hlt : x < followerPeriod)
    (hrun : timed.run w es = some t) :
    NeverExpires w es ↔
      Watchdog.Quiet timed TimedEvent.lasts answersHeartbeat followerPeriod x w es := by
  induction es generalizing w x with
  | nil =>
    refine iff_of_true (fun bs u hbs hu => ?_) hlt
    rw [List.prefix_nil.mp hbs] at hu
    rw [← Option.some.inj hu]
    exact hx.unexpired
  | cons e es ih =>
    obtain ⟨w', hw', hrun'⟩ := Option.bind_eq_some_iff.mp hrun
    obtain ⟨hiff, hkeep⟩ := unexpired_next_iff hx hlt hw'
    constructor
    · intro hall
      have hu : w'.Unexpired := hall [e] w' ⟨es, rfl⟩ (by simp [System.run, hw'])
      refine ⟨hlt, fun s hs => ?_⟩
      obtain rfl := Option.some.inj (hw'.symm.trans hs)
      refine (ih (hkeep hu) (hiff.mp hu) hrun').mp fun bs u hbs hu => ?_
      refine hall (e :: bs) u (List.cons_prefix_cons.mpr ⟨rfl, hbs⟩) ?_
      rw [System.run, hw', Option.bind_some, hu]
    · rintro ⟨_, hrest⟩ bs u hbs hu
      have hquiet := hrest w' hw'
      have hw'u : w'.Unexpired := hiff.mpr hquiet.lt
      rcases List.prefix_cons_iff.mp hbs with rfl | ⟨cs, rfl, hcs⟩
      · rw [← Option.some.inj hu]
        exact hx.unexpired
      · obtain ⟨s, hs, hu'⟩ := Option.bind_eq_some_iff.mp hu
        obtain rfl := Option.some.inj (hw'.symm.trans hs)
        exact (ih (hkeep hw'u) hquiet.lt hrun').mpr hquiet cs u hcs hu'

/-- **No election.** The timer never goes off if and only if in every period a heartbeat is
answered with `success = true`. -/
theorem neverExpires_iff {t : Watched} (hinit : timed.init w) (hrun : timed.run w es = some t) :
    NeverExpires w es ↔ Heartbeats w es := by
  obtain ⟨harmed, hdeadline, hel⟩ := hinit
  have hx : Ticks 0 w := ⟨⟨harmed, hel⟩, hdeadline.symm⟩
  rw [neverExpires_iff_quiet hx (by decide) hrun, Heartbeats, Watchdog.quiet_iff_recurs hrun]

/-- A node that has just connected to the leader. -/
def joined : Watched :=
  ⟨.launchJoin ⟨none, .empty⟩ 5 RaftServer.startHost 7777, 0, followerPeriod, 0⟩

/-- Ten seconds, after which the leader's timer broadcasts. -/
def tenSeconds : TimedEvent := .elapse (10 * 10 ^ 9)

/-- Every ten seconds a heartbeat. -/
def idleLeader : List TimedEvent :=
  let beat := .arrive .allOk ⟨1, 0, 0, 0, []⟩
  [tenSeconds, beat, tenSeconds, beat, tenSeconds]

theorem neverExpires_idleLeader : NeverExpires joined idleLeader := by
  obtain ⟨t, hrun⟩ : ∃ t, timed.run joined idleLeader = some t :=
    Option.isSome_iff_exists.mp (by decide +kernel)
  refine (neverExpires_iff ⟨rfl, rfl, rfl⟩ hrun).mpr ?_
  exact (Watchdog.quiet_iff_recurs hrun).mp (by decide +kernel)

/-- Every ten seconds the entries of a node that has been added. -/
def growingCluster : List TimedEvent :=
  let cfg nodeid port : Entry := ⟨.CFGADD, 1, nodeid, port, RaftServer.startHost, 0⟩
  [tenSeconds, .arrive .allOk ⟨1, 0, 0, 0, [cfg 1 7777, cfg 2 7778]⟩,
    tenSeconds, .arrive .allOk ⟨1, 1, 1, 1, [cfg 3 7779]⟩, tenSeconds]

/-- Both messages are answered with `success = true` and the timer goes off. -/
theorem expires_growingCluster : ¬ ∀ w es, timed.init w → (timed.run w es).isSome →
    Served w es → NeverExpires w es := by
  intro hall
  have hrun : ((timed.run joined growingCluster).any fun t => decide (t.elections = 1)) = true := by
    decide +kernel
  obtain ⟨t, ht, hel⟩ := (Option.any_eq_true _ _).mp hrun
  have hserved : Served joined growingCluster :=
    (Watchdog.quiet_iff_recurs ht).mp (by decide +kernel)
  have hsome : (timed.run joined growingCluster).isSome := Option.isSome_of_eq_some ht
  have hu := hall joined growingCluster ⟨rfl, rfl, rfl⟩ hsome hserved growingCluster t
    (List.prefix_refl _) ht
  rw [hu.elections] at hel
  exact absurd hel (by decide)

end Watched
end NanoRaft
