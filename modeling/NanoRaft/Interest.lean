import NanoRaft.Poller

/-!
# Registration of a channel

The five operations of `eventloop/Channel.h` on a channel whose descriptor stays open, and
what `EPoller::UpdateChannel` makes the kernel do for each. A new channel is added whatever
it listens for, while one that is added is deleted when it listens for nothing.

* `legal_of_run`: every `epoll_ctl` is one the kernel carries out;
* `registers_iff`: in which runs the kernel has the channel exactly while it listens.
-/

namespace NanoRaft

/-- `EnableRead`, `EnableWrite`, `DisableRead`, `DisableWrite` and `DisableAll`. -/
inductive ChannelOp where
  | enableRead
  | enableWrite
  | disableRead
  | disableWrite
  | disableAll
  deriving DecidableEq, Repr

/-- The operation takes interest away. -/
def ChannelOp.disables : ChannelOp → Bool
  | .enableRead | .enableWrite => false
  | .disableRead | .disableWrite | .disableAll => true

/-- What is listened for after an operation. -/
def Events.after (ev : Events) : ChannelOp → Events
  | .enableRead => { ev with read := true }
  | .enableWrite => { ev with write := true }
  | .disableRead => { ev with read := false }
  | .disableWrite => { ev with write := false }
  | .disableAll => .none

/-- The `epoll_ctl` with which `UpdateChannel` tells the kernel about a channel. -/
def Channel.ctlOp (ch : Channel) : EpollOp :=
  match ch.status with
  | .iIsNew | .iIsDeleted => .EPOLL_CTL_ADD
  | .iIsAdded => if ch.events = .none then .EPOLL_CTL_DEL else .EPOLL_CTL_MOD

/-- The kernel carries the operation out on a descriptor with this entry. -/
def EpollOp.Legal (entry : Option Events) : EpollOp → Prop
  | .EPOLL_CTL_ADD => entry = none
  | .EPOLL_CTL_MOD => entry.isSome
  | .EPOLL_CTL_DEL => entry.isSome

namespace Poller

def disableRead (p : Poller) (fd : ℕ) : Poller :=
  p.setEvents fd { (p.channel fd).events with read := false }

def apply (p : Poller) (fd : ℕ) : ChannelOp → Poller
  | .enableRead => p.enableRead fd
  | .enableWrite => p.enableWrite fd
  | .disableRead => p.disableRead fd
  | .disableWrite => p.disableWrite fd
  | .disableAll => p.disableAll fd

/-- The operations on the channel of a descriptor that is open and not registered, from its
constructor on. -/
def channeling (fd : ℕ) : System Poller ChannelOp where
  init p := p.channel fd = ⟨.none, .iIsNew⟩ ∧ p.epoll fd = none
  next p op := some (p.apply fd op)

/-- The kernel watches the descriptor exactly if its channel listens for something, and then
for just that. -/
def Mirrors (p : Poller) (fd : ℕ) : Prop :=
  p.epoll fd = if (p.channel fd).events = .none then none else some (p.channel fd).events

instance decidableMirrors (p : Poller) (fd : ℕ) : Decidable (p.Mirrors fd) :=
  inferInstanceAs (Decidable (_ = _))

/-- The `epoll_ctl` of an operation is legal, and kernel and channel agree afterwards. -/
structure Registers (fd : ℕ) (p : Poller) (op : ChannelOp) : Prop where
  legal : EpollOp.Legal (p.epoll fd)
    (Channel.ctlOp { p.channel fd with events := (p.channel fd).events.after op })
  mirrors : (p.apply fd op).Mirrors fd

/-- The operation takes no interest away where there is none. -/
def DisablesSome (fd : ℕ) (p : Poller) (op : ChannelOp) : Prop :=
  op.disables = true → (p.channel fd).events ≠ .none

instance decidableDisablesSome (fd : ℕ) (p : Poller) (op : ChannelOp) :
    Decidable (DisablesSome fd p op) := inferInstanceAs (Decidable (_ → _))

variable {p p' : Poller} {fd : ℕ} {op : ChannelOp} {ops : List ChannelOp}

/-! ## One operation -/

/-- Every operation sets the events and tells the poller. -/
theorem apply_eq (p : Poller) (fd : ℕ) (op : ChannelOp) :
    p.apply fd op = p.setEvents fd ((p.channel fd).events.after op) := by
  cases op <;> rfl

/-- What one change of interest does: the kernel is told what `ctlOp` says, and the channel
counts as deleted only after a deletion. -/
theorem setEvents_self (p : Poller) (fd : ℕ) (ev : Events) :
    (p.setEvents fd ev).epoll =
        p.epoll.ctl (Channel.ctlOp { p.channel fd with events := ev }) fd ev ∧
      ((p.setEvents fd ev).channel fd).status =
        if (p.channel fd).status = .iIsAdded ∧ ev = .none then .iIsDeleted else .iIsAdded := by
  unfold setEvents updateChannel Channel.ctlOp
  dsimp only
  rw [Function.update_self]
  cases hst : (p.channel fd).status with
  | iIsNew => exact ⟨rfl, by simp⟩
  | iIsDeleted => exact ⟨rfl, by simp⟩
  | iIsAdded =>
    by_cases hnone : ev = .none
    · dsimp only
      rw [if_pos hnone, if_pos hnone, if_pos ⟨rfl, hnone⟩]
      exact ⟨rfl, by simp⟩
    · dsimp only
      rw [if_neg hnone, if_neg hnone, if_neg fun h => hnone h.2]
      exact ⟨rfl, by simp⟩

/-- A channel that can be told about is told about legally. -/
theorem Ready.legal (h : p.Ready fd) (ev : Events) :
    EpollOp.Legal (p.epoll fd) (Channel.ctlOp { p.channel fd with events := ev }) := by
  unfold Channel.ctlOp
  dsimp only
  rcases h with (⟨hst, hk⟩ | ⟨hst, hk, _⟩) | ⟨hst, hk⟩
  · rw [hst, hk]
    dsimp only
    split_ifs
    · rfl
    · rfl
  · rw [hst]
    exact hk
  · rw [hst]
    exact hk

/-- It can be told about again. -/
theorem Ready.apply (h : p.Ready fd) (op : ChannelOp) : (p.apply fd op).Ready fd := by
  rw [apply_eq]
  exact Or.inl (setEvents_spec h _).1

/-- Nothing is listened for after an operation that takes the last interest away. -/
theorem after_none_eq_none_iff : Events.none.after op = .none ↔ op.disables = true := by
  cases op <;> decide

/-- A channel that the kernel mirrors is added exactly if it listens for something. -/
theorem added_iff_of_mirrors (hready : p.Ready fd) (hm : p.Mirrors fd) :
    (p.channel fd).status = .iIsAdded ↔ (p.channel fd).events ≠ .none := by
  rw [Mirrors] at hm
  rcases hready with (⟨hst, hk⟩ | ⟨hst, _, hev⟩) | ⟨hst, hk⟩
  · refine iff_of_true hst fun hev => ?_
    rw [hk, if_pos hev] at hm
    cases hm
  · exact iff_of_false (by simp [hst]) fun hne => hne hev
  · refine iff_of_false (by simp [hst]) fun hne => ?_
    rw [hk, if_neg hne] at hm
    cases hm

/-- A channel that the kernel mirrors is still mirrored after an operation, unless the operation
takes interest away where there is none: it adds the channel to listen for nothing. -/
theorem mirrors_apply_iff (hready : p.Ready fd) (hm : p.Mirrors fd) :
    (p.apply fd op).Mirrors fd ↔ DisablesSome fd p op := by
  obtain ⟨hsynced, hevents, _⟩ := setEvents_spec hready ((p.channel fd).events.after op)
  obtain ⟨_, hstatus⟩ := setEvents_self p fd ((p.channel fd).events.after op)
  rw [← apply_eq] at hsynced hevents hstatus
  have hadded := added_iff_of_mirrors hready hm
  rw [Mirrors, hevents, DisablesSome]
  by_cases hnone : (p.channel fd).events = .none
  · -- not added, so it is added now, for what the operation leaves
    have hst : (p.channel fd).status ≠ .iIsAdded := fun h => hadded.mp h hnone
    rw [if_neg fun h => hst h.1] at hstatus
    have hentry : (p.apply fd op).epoll fd = some (Events.none.after op) := by
      rcases hsynced with ⟨_, hk⟩ | ⟨hdel, _⟩
      · rw [hk, hevents, hnone]
      · rw [hstatus] at hdel
        cases hdel
    rw [hentry, hnone, ← after_none_eq_none_iff]
    split_ifs with hafter
    · exact iff_of_false (by simp) fun h => h hafter rfl
    · exact iff_of_true rfl fun h => absurd h hafter
  · refine iff_of_true ?_ fun _ => hnone
    have hst := hadded.mpr hnone
    rcases hsynced with ⟨hadd, hk⟩ | ⟨_, hk, hidle⟩
    · rw [hevents] at hk
      rw [hk, if_neg]
      intro hafter
      -- a channel that listens for nothing any more is deleted
      rw [if_pos ⟨hst, hafter⟩, hadd] at hstatus
      cases hstatus
    · rw [hevents] at hidle
      rw [hk, if_pos hidle]

/-! ## Runs -/

theorem ready_of_init (h : (channeling fd).init p) : p.Ready fd ∧ p.Mirrors fd := by
  obtain ⟨hch, hk⟩ := h
  refine ⟨Or.inr ⟨by rw [hch], hk⟩, ?_⟩
  rw [Mirrors, hch, hk]
  rfl

/-- **Legal.** In every run of a channel each `epoll_ctl` is legal. -/
theorem legal_of_run (h : (channeling fd).init p) (hrun : (channeling fd).run p ops = some p')
    (ev : Events) :
    EpollOp.Legal (p'.epoll fd) (Channel.ctlOp { p'.channel fd with events := ev }) := by
  have hready : p'.Ready fd := by
    apply System.invariant_of_run (C := System.anyStep) (I := fun p => p.Ready fd) _ ops
      (ready_of_init h).1 (System.allowed_anyStep ops p) hrun
    intro s op s' hs _ hn
    rw [← Option.some.inj hn]
    exact hs.apply op
  exact hready.legal ev

/-- Every sequence of operations can be carried out. -/
theorem exists_run (fd : ℕ) (p : Poller) (ops : List ChannelOp) :
    ∃ p', (channeling fd).run p ops = some p' := by
  induction ops generalizing p with
  | nil => exact ⟨p, rfl⟩
  | cons op ops ih => exact ih (p.apply fd op)

/-- **Registered while listening.** The calls of `UpdateChannel` on a channel are legal and keep
the kernel in step with it if and only if no operation takes interest away where there is
none. -/
theorem registers_iff (h : (channeling fd).init p) :
    (channeling fd).Allowed (Registers fd) p ops ↔
      (channeling fd).Allowed (DisablesSome fd) p ops := by
  obtain ⟨t, hrun⟩ := exists_run fd p ops
  apply System.allowed_congr (K := fun p => p.Ready fd ∧ p.Mirrors fd) _ ops (ready_of_init h) hrun
  rintro s op s' ⟨hready, hm⟩ hn
  rw [← Option.some.inj hn]
  have hiff : (s.apply fd op).Mirrors fd ↔ DisablesSome fd s op := mirrors_apply_iff hready hm
  refine ⟨⟨fun hreg => hiff.mp hreg.mirrors, fun hsome => ⟨hready.legal _, hiff.mpr hsome⟩⟩, ?_⟩
  exact fun hsome => ⟨hready.apply op, hiff.mpr hsome⟩

/-- A server whose loop knows no channel yet. -/
def idle : Poller := ⟨.new ⟨none, .empty⟩, fun _ => ⟨.none, .iIsNew⟩, fun _ => none⟩

/-- Reading and writing are enabled, and everything is disabled. -/
theorem registers_closed :
    (channeling 5).Allowed (Registers 5) idle [.enableRead, .enableWrite, .disableAll] := by
  rw [registers_iff ⟨rfl, rfl⟩]
  decide +kernel

/-- The constructor of `Conn` disables writing on a new channel. -/
theorem registers_idle : ¬ ∀ fd p ops, (channeling fd).init p →
    (channeling fd).Allowed (Registers fd) p ops := by
  intro hall
  have hone := (hall 5 idle [.disableWrite] ⟨rfl, rfl⟩).1.mirrors
  exact absurd hone (by decide +kernel)

end Poller
end NanoRaft
