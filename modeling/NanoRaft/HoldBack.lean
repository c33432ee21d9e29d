import NanoRaft.Proto
import NanoRaft.Lib.System
import NanoRaft.Lib.Unbroken

/-!
# The hold-back queue

The subscription channel of `eventloop/RedisChannel.cpp` numbers its messages. One that
comes too early waits in `m_stHoldBackQueue_`, a map whose lookups go through `operator[]`
and leave a null pointer under a number that is not there.

* `delivers_in_order`: the messages are handed out in order, each once;
* `holds_pending_iff`: in which runs the queue holds nothing but waiting messages.
-/

namespace NanoRaft

/-- `Msg`. -/
structure Msg where
  openid : Bytes
  expireTime : UInt64
  msgID : UInt32
  deriving DecidableEq, Repr

/-- What the callback reads out of a reply: `atoi(ID)`, `openid` and `atoi(expireTime)`. -/
structure Arrival where
  id : Int32
  openid : Bytes
  expireTime : Int32

/-- The message object made of a reply. -/
def Arrival.msg (a : Arrival) : Msg := ⟨a.openid, a.expireTime.toInt64.toUInt64, a.id.toUInt32⟩

/-- The sequence number and the queue of a `RedisChannel`. -/
structure RedisChannel where
  seq : UInt32
  holdBackQueue : OrdMap UInt32 (Option Msg)

namespace RedisChannel

def setSeq (p1 : RedisChannel) (dwSeq : UInt32) : RedisChannel := { p1 with seq := dwSeq }

def addToHoldBackQueue (p1 : RedisChannel) (dwMsgID : UInt32) (pstMsg : Msg) : RedisChannel :=
  { p1 with holdBackQueue := p1.holdBackQueue.insert dwMsgID (some pstMsg) }

def isHoldBackQueueEmpty (p1 : RedisChannel) : Bool := p1.holdBackQueue.size = 0

/-- `HoldBackQueueMsgBy`: a null pointer is inserted under a number that is not there. -/
def holdBackQueueMsgBy (p1 : RedisChannel) (dwMsgID : UInt32) : RedisChannel × Option Msg :=
  match p1.holdBackQueue.find? dwMsgID with
  | some pst => (p1, pst)
  | none => ({ p1 with holdBackQueue := p1.holdBackQueue.insert dwMsgID none }, none)

def holdBackQueueEraseBy (p1 : RedisChannel) (dwMsgID : UInt32) : RedisChannel :=
  { p1 with holdBackQueue := p1.holdBackQueue.erase dwMsgID }

/-- The `while` loop over the queue, with the messages it hands out. -/
def checkHoldBackQueue : (fuel : ℕ) → RedisChannel → (iReady : UInt32) →
    Option (RedisChannel × List Msg)
  | 0, _, _ => none
  | fuel + 1, p1, iReady =>
    if p1.isHoldBackQueueEmpty then some (p1, [])
    else
      match p1.holdBackQueueMsgBy (iReady + 1) with
      | (p1, some pst) => do
        let p1 := (p1.holdBackQueueEraseBy (iReady + 1)).setSeq (iReady + 1)
        let (p1, rest) ← checkHoldBackQueue fuel p1 (iReady + 1)
        pure (p1, pst :: rest)
      | (p1, none) => some (p1, [])

/-- The tests behind the in-order branch: a message behind a gap waits, a repeated one is
dropped. -/
def holdBack (p1 : RedisChannel) (a : Arrival) : RedisChannel :=
  if p1.seq + 1 < a.id.toUInt32 then p1.addToHoldBackQueue a.id.toUInt32 a.msg else p1

/-- `RedisSubMsgCallback` on one message, with the messages it hands out. Every turn of the
loop but the last takes an element off the queue, which bounds the number of turns. -/
def redisSubMsgCallback (p1 : RedisChannel) (a : Arrival) : Option (RedisChannel × List Msg) :=
  if p1.seq + 1 = a.id.toUInt32 then do
    let p1 := p1.setSeq (p1.seq + 1)
    let (p1, ms) ← p1.checkHoldBackQueue (p1.holdBackQueue.size + 1) p1.seq
    pure (if p1.isHoldBackQueueEmpty then p1 else p1.holdBack a, a.msg :: ms)
  else some (p1.holdBack a, [])

end RedisChannel

/-- A channel with the messages that have arrived on it and those it has handed out. -/
structure Subscription where
  channel : RedisChannel
  arrived : List Msg
  delivered : List Msg

namespace Subscription

/-- A channel before its first message. -/
def fresh : Subscription := ⟨⟨0, .empty⟩, [], []⟩

/-- One message arrives. -/
def next (s : Subscription) (a : Arrival) : Option Subscription :=
  (s.channel.redisSubMsgCallback a).map fun r =>
    ⟨r.1, s.arrived ++ [a.msg], s.delivered ++ r.2⟩

/-- The runs of a channel. -/
def subscribing : System Subscription Arrival := ⟨fun s => s = fresh, next⟩

end Subscription

namespace RedisChannel

variable {p1 : RedisChannel} {k : UInt32}

/-! ## The loop over the queue -/

/-- The message waiting under a number, whether or not there is a null pointer. -/
def held (p1 : RedisChannel) (dwMsgID : UInt32) : Option Msg :=
  (p1.holdBackQueue.find? dwMsgID).join

/-- The turn of the loop that hands out the next message. -/
def take (p1 : RedisChannel) : RedisChannel :=
  (p1.holdBackQueueEraseBy (p1.seq + 1)).setSeq (p1.seq + 1)

/-- The turn of the loop that finds no next message. -/
def probe (p1 : RedisChannel) : RedisChannel := (p1.holdBackQueueMsgBy (p1.seq + 1)).1

@[simp] theorem seq_take (p1 : RedisChannel) : p1.take.seq = p1.seq + 1 := rfl

@[simp] theorem held_setSeq (p1 : RedisChannel) (n k : UInt32) :
    (p1.setSeq n).held k = p1.held k := rfl

theorem held_take (p1 : RedisChannel) (k : UInt32) :
    p1.take.held k = if k = p1.seq + 1 then none else p1.held k := by
  show ((p1.holdBackQueue.erase (p1.seq + 1)).find? k).join = _
  rw [OrdMap.find?_erase]
  split_ifs
  · rfl
  · rfl

theorem held_add (p1 : RedisChannel) (n k : UInt32) (m : Msg) :
    (p1.addToHoldBackQueue n m).held k = if k = n then some m else p1.held k := by
  show ((p1.holdBackQueue.insert n (some m)).find? k).join = _
  rw [OrdMap.find?_insert]
  split_ifs
  · rfl
  · rfl

@[simp] theorem seq_holdBack (p1 : RedisChannel) (a : Arrival) :
    (p1.holdBack a).seq = p1.seq := by
  rw [holdBack]
  split_ifs
  · rfl
  · rfl

theorem held_eq_some {m : Msg} :
    p1.held k = some m ↔ p1.holdBackQueue.find? k = some (some m) :=
  Option.join_eq_some_iff

/-- Looking a number up gives the message waiting there, and changes neither the sequence
number nor what waits. -/
theorem holdBackQueueMsgBy_spec (p1 : RedisChannel) (k : UInt32) :
    (p1.holdBackQueueMsgBy k).2 = p1.held k ∧ (p1.holdBackQueueMsgBy k).1.seq = p1.seq ∧
      ∀ j, (p1.holdBackQueueMsgBy k).1.held j = p1.held j := by
  rw [holdBackQueueMsgBy]
  cases hk : p1.holdBackQueue.find? k with
  | some pst =>
    refine ⟨?_, rfl, fun j => rfl⟩
    rw [held, hk, Option.join_some]
  | none =>
    refine ⟨?_, rfl, fun j => ?_⟩
    · rw [held, hk, Option.join_none]
    · show ((p1.holdBackQueue.insert k none).find? j).join = (p1.holdBackQueue.find? j).join
      rw [OrdMap.find?_insert]
      split_ifs with hj
      · rw [hj, hk, Option.join_none, Option.join_some]
      · rfl

/-- A lookup that finds a message leaves the channel as it is. -/
theorem holdBackQueueMsgBy_of_held {m : Msg} (h : p1.held k = some m) :
    p1.holdBackQueueMsgBy k = (p1, some m) := by
  rw [holdBackQueueMsgBy, held_eq_some.mp h]

/-- Handing out a message makes the queue smaller. -/
theorem size_take_lt {m : Msg} (h : p1.held (p1.seq + 1) = some m) :
    p1.take.holdBackQueue.size < p1.holdBackQueue.size :=
  OrdMap.size_erase_lt (held_eq_some.mp h)

/-- How the loop leaves: the queue is empty, or the next message is missing. -/
inductive Leaves (p1 : RedisChannel) : RedisChannel → Prop where
  | empty (h : p1.holdBackQueue.size = 0) : Leaves p1 p1
  | gap (h : p1.holdBackQueue.size ≠ 0) (hheld : p1.held (p1.seq + 1) = none) : Leaves p1 p1.probe

/-- **The rule of the loop.** What holds of the channel and of the messages handed out, and
is kept when the next waiting message is handed out, holds where the loop leaves. -/
theorem checkHoldBackQueue_rule (P : RedisChannel → List Msg → Prop)
    (htake : ∀ p1 ms m, P p1 ms → p1.held (p1.seq + 1) = some m → P p1.take (ms ++ [m]))
    (ms : List Msg) {fuel : ℕ} (hfuel : p1.holdBackQueue.size < fuel) (hP : P p1 ms) :
    ∃ p2 p3 rest, p1.checkHoldBackQueue fuel p1.seq = some (p3, rest) ∧
      P p2 (ms ++ rest) ∧ p2.Leaves p3 := by
  induction fuel generalizing p1 ms with
  | zero => omega
  | succ fuel ih =>
    rw [checkHoldBackQueue]
    by_cases hempty : p1.holdBackQueue.size = 0
    · rw [if_pos (by simpa [isHoldBackQueueEmpty] using hempty)]
      exact ⟨p1, p1, [], rfl, by simpa using hP, .empty hempty⟩
    · rw [if_neg (by simpa [isHoldBackQueueEmpty] using hempty)]
      cases hheld : p1.held (p1.seq + 1) with
      | some m =>
        rw [holdBackQueueMsgBy_of_held hheld]
        have hlt := size_take_lt hheld
        obtain ⟨p2, p3, rest, hrun, hP2, hleave⟩ := ih _ (by omega) (htake p1 ms m hP hheld)
        rw [seq_take] at hrun
        refine ⟨p2, p3, m :: rest, ?_, by simpa using hP2, hleave⟩
        show (p1.take.checkHoldBackQueue fuel (p1.seq + 1)).bind _ = _
        rw [hrun]
        rfl
      | none =>
        -- the lookup has failed and left its null pointer
        have hnone : (p1.holdBackQueueMsgBy (p1.seq + 1)).2 = none := by
          rw [(holdBackQueueMsgBy_spec p1 _).1, hheld]
        refine ⟨p1, p1.probe, [], ?_, by simpa using hP, .gap hempty hheld⟩
        rw [probe]
        generalize p1.holdBackQueueMsgBy (p1.seq + 1) = r at hnone
        obtain ⟨r1, r2⟩ := r
        subst hnone
        rfl

/-! ## Order -/

/-- The numbers of some messages. -/
def ids (ms : List Msg) : Set ℕ := {n | ∃ m ∈ ms, m.msgID.toNat = n}

theorem ids_append (ms ms' : List Msg) : ids (ms ++ ms') = ids ms ∪ ids ms' := by
  ext n
  simp only [ids, List.mem_append, Set.mem_ofPred_eq, Set.mem_union, or_and_right, exists_or]

theorem mem_ids_singleton {m : Msg} {n : ℕ} : n ∈ ids [m] ↔ m.msgID.toNat = n := by
  simp [ids, eq_comm]

/-- The numbers are those of a signed counter from 1 on. -/
def Numbered (ms : List Msg) : Prop := ∀ m ∈ ms, 0 < m.msgID.toNat ∧ m.msgID.toNat < 2 ^ 31

/-- What a channel has handed out is in order, and what waits are the messages beyond it.
This much also holds in the loop over the queue. -/
structure InOrder (arrived : List Msg) (p1 : RedisChannel) (delivered : List Msg) : Prop where
  upto : Unbroken (ids arrived) p1.seq.toNat
  delivered : delivered.map (fun m => m.msgID.toNat) = List.range' 1 p1.seq.toNat
  own : ∀ k m, p1.held k = some m → p1.seq.toNat < k.toNat ∧ m.msgID = k ∧ m ∈ arrived
  waits : ∀ m ∈ arrived, p1.seq.toNat < m.msgID.toNat → p1.held m.msgID ≠ none

namespace InOrder

variable {arrived delivered : List Msg} {m : Msg}

/-- The sequence number is that of a message that has arrived. -/
theorem seq_lt (h : InOrder arrived p1 delivered) (hnum : Numbered arrived) :
    p1.seq.toNat < 2 ^ 31 := by
  rcases Nat.eq_zero_or_pos p1.seq.toNat with h0 | hpos
  · omega
  · obtain ⟨m, hm, heq⟩ := h.upto p1.seq.toNat hpos (le_refl _)
    have hlt := (hnum m hm).2
    omega

theorem toNat_succ (h : InOrder arrived p1 delivered) (hnum : Numbered arrived) :
    (p1.seq + 1).toNat = p1.seq.toNat + 1 := by
  have hlt := h.seq_lt hnum
  exact UInt.toNat_succ32 (by omega)

/-- The next message is the one waiting under the next number. -/
theorem next_mem_iff (h : InOrder arrived p1 delivered) (hnum : Numbered arrived) :
    p1.seq.toNat + 1 ∈ ids arrived ↔ p1.held (p1.seq + 1) ≠ none := by
  have hsucc := h.toNat_succ hnum
  constructor
  · rintro ⟨m, hm, heq⟩
    have hid : m.msgID = p1.seq + 1 := UInt32.toNat_inj.mp (by rw [heq, hsucc])
    rw [← hid]
    exact h.waits m hm (by omega)
  · intro hheld
    obtain ⟨m, hm⟩ := Option.ne_none_iff_exists'.mp hheld
    obtain ⟨_, hid, hmem⟩ := h.own _ m hm
    exact ⟨m, hmem, by rw [hid, hsucc]⟩

/-- One more message in order. -/
theorem delivered_snoc (h : InOrder arrived p1 delivered) (hid : m.msgID.toNat = p1.seq.toNat + 1) :
    (delivered ++ [m]).map (fun m => m.msgID.toNat) = List.range' 1 (p1.seq.toNat + 1) := by
  rw [List.map_append, h.delivered, List.range'_concat]
  simp [hid, add_comm]

/-- A turn of the loop. -/
theorem take (h : InOrder arrived p1 delivered) (hnum : Numbered arrived)
    (hm : p1.held (p1.seq + 1) = some m) : InOrder arrived p1.take (delivered ++ [m]) := by
  have hsucc := h.toNat_succ hnum
  have hnext : p1.seq.toNat + 1 ∈ ids arrived := (h.next_mem_iff hnum).mpr (by simp [hm])
  have hid : m.msgID.toNat = p1.seq.toNat + 1 := by rw [(h.own _ m hm).2.1, hsucc]
  refine ⟨?_, ?_, fun k m' hk => ?_, fun m' hm' hlt => ?_⟩
  · rw [seq_take, hsucc]
    exact h.upto.succ hnext
  · rw [seq_take, hsucc]
    exact h.delivered_snoc hid
  · rw [held_take] at hk
    split_ifs at hk with hne
    obtain ⟨hlt, hown⟩ := h.own k m' hk
    have hne' : k.toNat ≠ (p1.seq + 1).toNat := fun heq => hne (UInt32.toNat_inj.mp heq)
    exact ⟨by rw [seq_take]; omega, hown⟩
  · rw [seq_take] at hlt
    rw [held_take, if_neg]
    · exact h.waits m' hm' (by omega)
    · intro heq
      rw [heq] at hlt
      omega

/-- The message with the next number has arrived and is handed out. -/
theorem deliver (h : InOrder arrived p1 delivered) (hsucc : (p1.seq + 1).toNat = p1.seq.toNat + 1)
    (hnone : p1.held (p1.seq + 1) = none) (hid : m.msgID = p1.seq + 1) :
    InOrder (arrived ++ [m]) (p1.setSeq (p1.seq + 1)) (delivered ++ [m]) := by
  have hseq : (p1.setSeq (p1.seq + 1)).seq.toNat = p1.seq.toNat + 1 := hsucc
  have hid' : m.msgID.toNat = p1.seq.toNat + 1 := by rw [hid, hsucc]
  refine ⟨?_, ?_, fun k m' hk => ?_, fun m' hm' hlt => ?_⟩
  · rw [hseq, ids_append]
    exact (h.upto.mono Set.subset_union_left).succ (Or.inr (mem_ids_singleton.mpr hid'))
  · rw [hseq]
    exact h.delivered_snoc hid'
  · rw [held_setSeq] at hk
    obtain ⟨hlt, hown, hmem⟩ := h.own k m' hk
    -- nothing was waiting under the number handed out
    have hne : k.toNat ≠ (p1.seq + 1).toNat := by
      intro heq
      rw [UInt32.toNat_inj.mp heq, hnone] at hk
      cases hk
    exact ⟨by omega, hown, List.mem_append_left _ hmem⟩
  · rw [hseq] at hlt
    rw [held_setSeq]
    rcases List.mem_append.mp hm' with hm' | hm'
    · exact h.waits m' hm' (by omega)
    · rw [List.mem_singleton.mp hm'] at hlt
      omega

/-- A message that is not the next one. -/
theorem holdBack {a : Arrival} (h : InOrder arrived p1 delivered)
    (hsucc : (p1.seq + 1).toNat = p1.seq.toNat + 1) (hne : p1.seq + 1 ≠ a.id.toUInt32) :
    InOrder (arrived ++ [a.msg]) (p1.holdBack a) delivered := by
  have hne' : (p1.seq + 1).toNat ≠ a.msg.msgID.toNat := fun heq => hne (UInt32.toNat_inj.mp heq)
  have hupto : Unbroken (ids (arrived ++ [a.msg])) p1.seq.toNat := by
    rw [ids_append]
    exact h.upto.mono Set.subset_union_left
  rw [RedisChannel.holdBack]
  split_ifs with hgap
  · -- the message waits behind the gap
    have hlt : (p1.seq + 1).toNat < a.msg.msgID.toNat := UInt32.lt_iff_toNat_lt.mp hgap
    refine ⟨hupto, h.delivered, fun k m' hk => ?_, fun m' hm' hm'' => ?_⟩
    · rw [held_add] at hk
      split_ifs at hk with heq
      · obtain rfl := Option.some.inj hk
        refine ⟨?_, heq.symm, by simp⟩
        rw [heq]
        show p1.seq.toNat < a.msg.msgID.toNat
        omega
      · obtain ⟨h1, h2, h3⟩ := h.own k m' hk
        exact ⟨h1, h2, List.mem_append_left _ h3⟩
    · rw [held_add]
      split_ifs with heq
      · simp
      · rcases List.mem_append.mp hm' with hm' | hm'
        · exact h.waits m' hm' hm''
        · rw [List.mem_singleton.mp hm'] at heq
          exact absurd rfl heq
  · -- the message is a repeated one
    have hle : a.msg.msgID.toNat ≤ p1.seq.toNat := by
      have hnlt : ¬ (p1.seq + 1).toNat < a.msg.msgID.toNat := fun hlt =>
        hgap (UInt32.lt_iff_toNat_lt.mpr hlt)
      omega
    refine ⟨hupto, h.delivered, fun k m' hk => ?_, fun m' hm' hm'' => ?_⟩
    · obtain ⟨h1, h2, h3⟩ := h.own k m' hk
      exact ⟨h1, h2, List.mem_append_left _ h3⟩
    · rcases List.mem_append.mp hm' with hm' | hm'
      · exact h.waits m' hm' hm''
      · rw [List.mem_singleton.mp hm'] at hm''
        omega

end InOrder

theorem seq_leaves {p2 : RedisChannel} (h : p1.Leaves p2) : p2.seq = p1.seq := by
  cases h with
  | empty => rfl
  | gap => exact (holdBackQueueMsgBy_spec p1 _).2.1

theorem held_leaves {p2 : RedisChannel} (h : p1.Leaves p2) (k : UInt32) :
    p2.held k = p1.held k := by
  cases h with
  | empty => rfl
  | gap => exact (holdBackQueueMsgBy_spec p1 _).2.2 k

/-- The loop leaves a channel whose next message has not arrived. -/
theorem held_next_of_leaves {p2 : RedisChannel} (h : p1.Leaves p2) :
    p2.held (p2.seq + 1) = none := by
  rw [held_leaves h, seq_leaves h]
  cases h with
  | empty h =>
    rw [held, OrdMap.size_eq_zero_iff.mp h]
    rfl
  | gap _ hheld => exact hheld

theorem InOrder.of_leaves {p2 : RedisChannel} {arrived delivered : List Msg}
    (h : InOrder arrived p1 delivered) (hl : p1.Leaves p2) : InOrder arrived p2 delivered := by
  obtain ⟨hupto, hdel, hown, hwaits⟩ := h
  rw [← seq_leaves hl] at hupto hdel hown hwaits
  refine ⟨hupto, hdel, fun k m hk => ?_, fun m hm hlt => ?_⟩
  · rw [held_leaves hl] at hk
    exact hown k m hk
  · rw [held_leaves hl]
    exact hwaits m hm hlt

/-- The loop keeps the order and stops in front of a gap. -/
theorem InOrder.checkHoldBackQueue {arrived delivered : List Msg} {n : ℕ}
    (h : InOrder arrived p1 delivered) (hnum : Numbered arrived) (hn : n ≤ p1.seq.toNat) :
    ∃ p2 rest, p1.checkHoldBackQueue (p1.holdBackQueue.size + 1) p1.seq = some (p2, rest) ∧
      InOrder arrived p2 (delivered ++ rest) ∧ p2.held (p2.seq + 1) = none ∧
      n ≤ p2.seq.toNat := by
  have htake : ∀ p ms m, InOrder arrived p ms ∧ n ≤ p.seq.toNat → p.held (p.seq + 1) = some m →
      InOrder arrived p.take (ms ++ [m]) ∧ n ≤ p.take.seq.toNat := by
    rintro p ms m ⟨hord, hle⟩ hm
    refine ⟨hord.take hnum hm, ?_⟩
    rw [seq_take, hord.toNat_succ hnum]
    omega
  obtain ⟨p2, p3, rest, hrun, ⟨hord, hle⟩, hleave⟩ :=
    checkHoldBackQueue_rule (fun p ms => InOrder arrived p ms ∧ n ≤ p.seq.toNat) htake delivered
      (Nat.lt_succ_self _) ⟨h, hn⟩
  exact ⟨p3, rest, hrun, hord.of_leaves hleave, held_next_of_leaves hleave,
    by rw [seq_leaves hleave]; exact hle⟩

/-- One message keeps the order, and the next one is not there afterwards. -/
theorem redisSubMsgCallback_inOrder {arrived delivered : List Msg} {a : Arrival}
    (h : InOrder arrived p1 delivered) (hnone : p1.held (p1.seq + 1) = none)
    (hnum : Numbered (arrived ++ [a.msg])) :
    ∃ p2 ms, p1.redisSubMsgCallback a = some (p2, ms) ∧
      InOrder (arrived ++ [a.msg]) p2 (delivered ++ ms) ∧ p2.held (p2.seq + 1) = none := by
  have hsucc := h.toNat_succ fun m hm => hnum m (List.mem_append_left _ hm)
  rw [redisSubMsgCallback]
  split_ifs with hnext
  · -- the message is handed out, then the ones waiting for it; its number stays behind
    obtain ⟨p2, rest, hrun, hord, hgap, hle⟩ :=
      (h.deliver hsucc hnone hnext.symm).checkHoldBackQueue hnum (le_refl _)
    have hstay : p2.holdBack a = p2 := by
      have hseq : (p1.setSeq (p1.seq + 1)).seq = a.id.toUInt32 := hnext
      have hlt : ¬ p2.seq + 1 < a.id.toUInt32 := by
        rw [UInt32.lt_iff_toNat_lt, hord.toNat_succ hnum, ← hseq]
        omega
      exact if_neg hlt
    refine ⟨p2, a.msg :: rest, ?_, by simpa using hord, hgap⟩
    show Option.bind (RedisChannel.checkHoldBackQueue _ _ _) _ = _
    rw [hrun]
    show some (if _ then p2 else p2.holdBack a, a.msg :: rest) = _
    rw [hstay, ite_self]
  · have hord := h.holdBack hsucc hnext
    refine ⟨_, _, rfl, by simpa using hord, ?_⟩
    rw [seq_holdBack, RedisChannel.holdBack]
    split_ifs
    · rw [held_add, if_neg hnext]
      exact hnone
    · exact hnone

end RedisChannel

namespace Subscription

open RedisChannel

/-! ### Numbers from 1 on -/

/-- A positive number is not changed by the conversion to an unsigned one. -/
theorem toNat_msgID {a : Arrival} (h : 0 < a.id) : (a.msg.msgID.toNat : ℤ) = a.id.toInt := by
  have hpos : 0 < a.id.toBitVec.toInt := Int32.lt_iff_toInt_lt.mp h
  show (a.id.toBitVec.toNat : ℤ) = a.id.toBitVec.toInt
  rw [BitVec.toInt_eq_toNat_cond] at hpos ⊢
  split_ifs at hpos ⊢ with hc
  · rfl
  · omega

theorem numbered_of_pos {as : List Arrival} (h : ∀ a ∈ as, 0 < a.id) :
    Numbered (as.map Arrival.msg) := by
  intro m hm
  obtain ⟨a, ha, rfl⟩ := List.mem_map.mp hm
  have hpos : 0 < a.id.toInt := Int32.lt_iff_toInt_lt.mp (h a ha)
  have hlt := a.id.toInt_lt
  have heq := toNat_msgID (h a ha)
  omega

theorem mem_ids_map {as : List Arrival} (h : ∀ a ∈ as, 0 < a.id) (i : ℕ) :
    i ∈ ids (as.map Arrival.msg) ↔ ∃ a ∈ as, a.id.toInt = i := by
  constructor
  · rintro ⟨m, hm, rfl⟩
    obtain ⟨a, ha, rfl⟩ := List.mem_map.mp hm
    exact ⟨a, ha, (toNat_msgID (h a ha)).symm⟩
  · rintro ⟨a, ha, heq⟩
    have hid := toNat_msgID (h a ha)
    exact ⟨a.msg, List.mem_map_of_mem ha, by omega⟩

/-! ### Runs -/

/-- What holds between two messages. -/
structure Ordered (s : Subscription) : Prop where
  inOrder : InOrder s.arrived s.channel s.delivered
  complete : s.channel.held (s.channel.seq + 1) = none

theorem ordered_fresh : fresh.Ordered :=
  ⟨⟨Unbroken.zero _, rfl, fun _ _ h => (by cases h), fun _ h => (by cases h)⟩, rfl⟩

/-- A run over messages with proper numbers goes through, and keeps the order. -/
theorem run_ordered {s : Subscription} (as : List Arrival) (h : s.Ordered)
    (hnum : Numbered (s.arrived ++ as.map Arrival.msg)) :
    ∃ s', subscribing.run s as = some s' ∧ s'.Ordered ∧
      s'.arrived = s.arrived ++ as.map Arrival.msg := by
  induction as generalizing s with
  | nil => exact ⟨s, rfl, h, by simp⟩
  | cons a as ih =>
    rw [List.map_cons, List.append_cons] at hnum ⊢
    have hone : Numbered (s.arrived ++ [a.msg]) := fun m hm =>
      hnum m (List.mem_append_left _ hm)
    obtain ⟨p2, ms, hrun, hord, hnone⟩ := redisSubMsgCallback_inOrder h.inOrder h.complete hone
    obtain ⟨s', hs', hord', harr⟩ := ih (s := ⟨p2, s.arrived ++ [a.msg], s.delivered ++ ms⟩)
      ⟨hord, hnone⟩ hnum
    refine ⟨s', ?_, hord', harr⟩
    show (s.next a).bind _ = _
    rw [next, hrun]
    exact hs'

/-- **In order, each once.** Whatever the order in which messages with numbers from 1 on
arrive, and however often, the messages handed out are those numbered from 1 to the last
one before the first gap, and the sequence number is that of the last one. -/
theorem delivers_in_order (as : List Arrival) (hnum : ∀ a ∈ as, 0 < a.id) :
    ∃ s k, subscribing.run fresh as = some s ∧
      IsGreatest {n : ℕ | ∀ i, 1 ≤ i → i ≤ n → ∃ a ∈ as, a.id.toInt = i} k ∧
      s.delivered.map (fun m => m.msgID.toNat) = List.range' 1 k ∧
      s.channel.seq.toNat = k := by
  have hnumbered := numbered_of_pos hnum
  obtain ⟨s, hrun, hord, harr⟩ := run_ordered as ordered_fresh hnumbered
  have harr' : s.arrived = as.map Arrival.msg := by rw [harr]; rfl
  refine ⟨s, s.channel.seq.toNat, hrun, ?_, hord.inOrder.delivered, rfl⟩
  have hgap : s.channel.seq.toNat + 1 ∉ ids s.arrived := fun hmem =>
    (hord.inOrder.next_mem_iff (by rw [harr']; exact hnumbered)).mp hmem hord.complete
  have hgreat := hord.inOrder.upto.isGreatest hgap
  rw [harr'] at hgreat
  -- the two ways to say what has arrived
  have hsets : {n | Unbroken (ids (as.map Arrival.msg)) n}
      = {n : ℕ | ∀ i, 1 ≤ i → i ≤ n → ∃ a ∈ as, a.id.toInt = i} := by
    ext n
    simp only [Set.mem_ofPred_eq, Unbroken, mem_ids_map hnum]
  rw [hsets] at hgreat
  exact hgreat

/-- Three messages in the wrong order, one of them twice. -/
theorem delivers_in_order_three :
    ∃ s k, subscribing.run fresh
        [⟨2, [], 0⟩, ⟨1, [], 0⟩, ⟨2, [], 0⟩] = some s ∧
      IsGreatest {n : ℕ | ∀ i, 1 ≤ i → i ≤ n →
        ∃ a ∈ [(⟨2, [], 0⟩ : Arrival), ⟨1, [], 0⟩, ⟨2, [], 0⟩], a.id.toInt = i} k ∧
      s.delivered.map (fun m => m.msgID.toNat) = List.range' 1 k ∧ s.channel.seq.toNat = k :=
  delivers_in_order _ (by simp)

end Subscription

namespace RedisChannel

variable {p1 : RedisChannel} {k : UInt32}

/-! ## What the queue holds -/

/-- The callback always comes back. -/
theorem redisSubMsgCallback_isSome (p1 : RedisChannel) (a : Arrival) :
    (p1.redisSubMsgCallback a).isSome := by
  rw [redisSubMsgCallback]
  split_ifs
  · obtain ⟨_, p3, rest, hrun, _⟩ :=
      checkHoldBackQueue_rule (fun _ _ => True) (fun _ _ _ _ _ => trivial) []
        (Nat.lt_succ_self (p1.setSeq (p1.seq + 1)).holdBackQueue.size) trivial
    show (Option.bind (RedisChannel.checkHoldBackQueue _ _ _) _).isSome
    rw [hrun]
    rfl
  · rfl

/-- Every number in the queue is beyond the sequence number and has its message. -/
def Waiting (p1 : RedisChannel) : Prop :=
  ∀ k v, p1.holdBackQueue.find? k = some v →
    p1.seq.toNat < k.toNat ∧ ∃ m, v = some m ∧ m.msgID = k

/-- What waits follows the sequence number without a gap. -/
def NoGap (p1 : RedisChannel) : Prop :=
  ∀ k, p1.held k ≠ none → ∀ j, p1.seq.toNat < j.toNat → j.toNat ≤ k.toNat → p1.held j ≠ none

/-- Every number up to the sequence number has been handed out. -/
def DeliveredTo (p1 : RedisChannel) (delivered : List Msg) : Prop :=
  ∀ n : UInt32, 0 < n.toNat → n.toNat ≤ p1.seq.toNat → ∃ d ∈ delivered, d.msgID = n

/-- How far the loop over the queue has come on the way from `p0`. -/
structure Drained (p0 p1 : RedisChannel) (delivered : List Msg) : Prop where
  le : p0.seq.toNat ≤ p1.seq.toNat
  kept : ∀ k, p1.holdBackQueue.find? k =
    if k.toNat ≤ p1.seq.toNat then none else p0.holdBackQueue.find? k
  took : ∀ j, p0.seq.toNat < j.toNat → j.toNat ≤ p1.seq.toNat → p0.held j ≠ none
  delivered : p1.DeliveredTo delivered

namespace Drained

variable {p0 : RedisChannel} {ms : List Msg} {m : Msg}

theorem start (hw : p0.Waiting) (hd : p0.DeliveredTo ms) : Drained p0 p0 ms := by
  refine ⟨le_refl _, fun k => ?_, fun j h1 h2 => by omega, hd⟩
  split_ifs with hle
  · cases hk : p0.holdBackQueue.find? k with
    | none => rfl
    | some v =>
      have hlt := (hw k v hk).1
      omega
  · rfl

/-- What waits at the next number was waiting there from the beginning. -/
theorem held_next (h : Drained p0 p1 ms) (hm : p1.held (p1.seq + 1) = some m) :
    (p1.seq + 1).toNat = p1.seq.toNat + 1 ∧ p0.held (p1.seq + 1) = some m := by
  have hfind := held_eq_some.mp hm
  rw [h.kept] at hfind
  split_ifs at hfind with hle
  refine ⟨?_, held_eq_some.mpr hfind⟩
  -- the next number is not the zero behind the last one
  have hlt := p1.seq.toNat_lt
  rw [UInt32.toNat_add] at hle ⊢
  have h1 : (1 : UInt32).toNat = 1 := rfl
  omega

theorem take (h : Drained p0 p1 ms) (hw : p0.Waiting) (hm : p1.held (p1.seq + 1) = some m) :
    Drained p0 p1.take (ms ++ [m]) := by
  obtain ⟨hsucc, hm0⟩ := h.held_next hm
  have hid : m.msgID = p1.seq + 1 := by
    obtain ⟨_, m', hm', hid⟩ := hw _ _ (held_eq_some.mp hm0)
    rw [Option.some.inj hm']
    exact hid
  have hle := h.le
  refine ⟨by rw [seq_take]; omega, fun k => ?_, fun j h1 h2 => ?_, fun n hn hns => ?_⟩
  · show (p1.holdBackQueue.erase (p1.seq + 1)).find? k = if k.toNat ≤ (p1.seq + 1).toNat then _ else _
    rw [OrdMap.find?_erase, h.kept, hsucc]
    by_cases hk : k = p1.seq + 1
    · rw [if_pos hk, if_pos (by rw [hk]; omega)]
    · have hk' : k.toNat ≠ (p1.seq + 1).toNat := fun heq => hk (UInt32.toNat_inj.mp heq)
      rw [if_neg hk]
      by_cases hkl : k.toNat ≤ p1.seq.toNat
      · rw [if_pos hkl, if_pos (by omega)]
      · rw [if_neg hkl, if_neg (by omega)]
  · rw [seq_take] at h2
    by_cases hj : j.toNat ≤ p1.seq.toNat
    · exact h.took j h1 hj
    · have hj' : j = p1.seq + 1 := UInt32.toNat_inj.mp (by omega)
      rw [hj', hm0]
      simp
  · rw [seq_take] at hns
    by_cases hn' : n.toNat ≤ p1.seq.toNat
    · obtain ⟨d, hd, hdn⟩ := h.delivered n hn hn'
      exact ⟨d, List.mem_append_left _ hd, hdn⟩
    · have heq : n = p1.seq + 1 := UInt32.toNat_inj.mp (by omega)
      exact ⟨m, by simp, by rw [hid, heq]⟩

/-- A queue that the loop empties had no gap. -/
theorem noGap_of_empty (h : Drained p0 p1 ms) (hempty : p1.holdBackQueue.size = 0) :
    p0.NoGap := by
  intro k hk j hj hjk
  have hkle : k.toNat ≤ p1.seq.toNat := by
    by_contra hlt
    have hnone := OrdMap.size_eq_zero_iff.mp hempty k
    rw [h.kept, if_neg hlt] at hnone
    exact hk (by rw [held, hnone]; rfl)
  exact h.took j hj (by omega)

/-- A loop that stops in front of a gap has found one in the queue. -/
theorem gap_of_stop (h : Drained p0 p1 ms) (hw : p0.Waiting) (hsize : p1.holdBackQueue.size ≠ 0)
    (hnone : p1.held (p1.seq + 1) = none) : ¬ p0.NoGap := by
  intro hall
  -- something is left, beyond the number that was looked up
  have hleft : ∃ k v, p1.holdBackQueue.find? k = some v := by
    by_contra hno
    refine hsize (OrdMap.size_eq_zero_iff.mpr fun k => ?_)
    cases hk : p1.holdBackQueue.find? k with
    | none => rfl
    | some v => exact absurd ⟨k, v, hk⟩ hno
  obtain ⟨k, v, hk⟩ := hleft
  rw [h.kept] at hk
  split_ifs at hk with hle
  obtain ⟨_, m, rfl, _⟩ := hw k v hk
  have hsucc : (p1.seq + 1).toNat = p1.seq.toNat + 1 := by
    have hlt := k.toNat_lt
    exact UInt.toNat_succ32 (by omega)
  have hle0 := h.le
  have hheld0 : p0.held (p1.seq + 1) ≠ none :=
    hall k (by rw [held_eq_some.mpr hk]; simp) _ (by omega) (by omega)
  refine hheld0 ?_
  rw [held] at hnone ⊢
  rw [h.kept, if_neg (by omega)] at hnone
  exact hnone

end Drained

/-- A failed lookup leaves a null pointer. -/
theorem find?_probe (h : p1.held (p1.seq + 1) = none) :
    p1.probe.holdBackQueue.find? (p1.seq + 1) = some none := by
  rw [probe, holdBackQueueMsgBy]
  cases hk : p1.holdBackQueue.find? (p1.seq + 1) with
  | some pst =>
    rw [held, hk, Option.join_some] at h
    rw [← h]
    exact hk
  | none =>
    show (p1.holdBackQueue.insert (p1.seq + 1) none).find? (p1.seq + 1) = some none
    rw [OrdMap.find?_insert, if_pos rfl]

/-- Holding a message back touches no other number than its own, which is not the next. -/
theorem find?_holdBack_next (p1 : RedisChannel) (a : Arrival) :
    (p1.holdBack a).holdBackQueue.find? (p1.seq + 1) = p1.holdBackQueue.find? (p1.seq + 1) := by
  rw [holdBack]
  split_ifs with hlt
  · show (p1.holdBackQueue.insert a.id.toUInt32 (some a.msg)).find? (p1.seq + 1) = _
    rw [OrdMap.find?_insert, if_neg (ne_of_lt hlt)]
  · rfl

/-- The in-order branch: either the queue is empty afterwards, and there was no gap in it,
or there was one, and a null pointer is left behind. -/
theorem redisSubMsgCallback_next {a : Arrival} {delivered : List Msg} {p2 : RedisChannel}
    {ms : List Msg} (hnext : p1.seq + 1 = a.id.toUInt32)
    (hw : (p1.setSeq (p1.seq + 1)).Waiting)
    (hd : (p1.setSeq (p1.seq + 1)).DeliveredTo (delivered ++ [a.msg]))
    (h : p1.redisSubMsgCallback a = some (p2, ms)) :
    (p2.holdBackQueue.size = 0 ∧ (p1.setSeq (p1.seq + 1)).NoGap ∧
        p2.DeliveredTo (delivered ++ ms)) ∨
      ((∃ k, p2.holdBackQueue.find? k = some none) ∧ ¬ (p1.setSeq (p1.seq + 1)).NoGap) := by
  obtain ⟨q, p3, rest, hrun, hdr, hleave⟩ :=
    checkHoldBackQueue_rule
      (fun p ms => Drained (p1.setSeq (p1.seq + 1)) p (delivered ++ ms))
      (fun p ms m hp hm => by
        have htake := hp.take hw hm
        rw [List.append_assoc] at htake
        exact htake)
      [a.msg] (Nat.lt_succ_self _) (Drained.start hw hd)
  rw [redisSubMsgCallback, if_pos hnext] at h
  change Option.bind (RedisChannel.checkHoldBackQueue _ _ _) _ = _ at h
  rw [hrun] at h
  obtain ⟨hp2, hms⟩ : (if p3.isHoldBackQueueEmpty then p3 else p3.holdBack a) = p2 ∧
      a.msg :: rest = ms := by simpa using h
  subst hp2 hms
  cases hleave with
  | empty hempty =>
    have hb : q.isHoldBackQueueEmpty = true := by simpa [isHoldBackQueueEmpty] using hempty
    rw [if_pos hb]
    exact Or.inl ⟨hempty, hdr.noGap_of_empty hempty, hdr.delivered⟩
  | gap hsize hnone =>
    refine Or.inr ⟨⟨q.seq + 1, ?_⟩, hdr.gap_of_stop hw hsize hnone⟩
    have hseq : q.probe.seq = q.seq := (holdBackQueueMsgBy_spec q _).2.1
    split_ifs
    · exact find?_probe hnone
    · rw [← hseq, find?_holdBack_next, hseq]
      exact find?_probe hnone

end RedisChannel

namespace Subscription

open RedisChannel

/-- Every number in the queue is beyond the next one, and its message has arrived and has not
been handed out. -/
def Pending (s : Subscription) : Prop :=
  ∀ k v, s.channel.holdBackQueue.find? k = some v →
    s.channel.seq.toNat + 1 < k.toNat ∧
      ∃ m, v = some m ∧ m.msgID = k ∧ m ∈ s.arrived ∧ ∀ d ∈ s.delivered, d.msgID ≠ k

/-- A message with the next number finds no gap in the queue, and one that is put into the
queue has a number that was not handed out before. -/
def FindsNoGap (s : Subscription) (a : Arrival) : Prop :=
  (s.channel.seq + 1 = a.id.toUInt32 → (s.channel.setSeq (s.channel.seq + 1)).NoGap) ∧
    (s.channel.seq + 1 < a.id.toUInt32 → ∀ d ∈ s.delivered, d.msgID ≠ a.id.toUInt32)

/-- An empty queue follows from the messages that have arrived. -/
theorem Pending.size_eq_zero {s : Subscription} (h : s.Pending)
    (harr : ∀ m ∈ s.arrived, m.msgID ≤ s.channel.seq) : s.channel.holdBackQueue.size = 0 := by
  refine OrdMap.size_eq_zero_iff.mpr fun k => ?_
  cases hk : s.channel.holdBackQueue.find? k with
  | none => rfl
  | some v =>
    obtain ⟨hlt, m, _, hid, hm, _⟩ := h k v hk
    have hle := UInt32.le_iff_toNat_le.mp (harr m hm)
    rw [hid] at hle
    omega

/-- The sequence number is counted up: what waits is beyond it, and it counts what has been
handed out. -/
theorem waiting_succ {s : Subscription} (h : s.Pending) :
    (s.channel.setSeq (s.channel.seq + 1)).Waiting := by
  intro k v hk
  obtain ⟨hlt, m, hv, hid, _⟩ := h k v hk
  refine ⟨?_, m, hv, hid⟩
  have hk' := k.toNat_lt
  show (s.channel.seq + 1).toNat < k.toNat
  rw [UInt.toNat_succ32 (by omega)]
  exact hlt

theorem deliveredTo_succ {s : Subscription} {m : Msg} (h : s.channel.DeliveredTo s.delivered)
    (hid : s.channel.seq + 1 = m.msgID) :
    (s.channel.setSeq (s.channel.seq + 1)).DeliveredTo (s.delivered ++ [m]) := by
  intro n hn hle
  change n.toNat ≤ (s.channel.seq + 1).toNat at hle
  by_cases hn' : n.toNat ≤ s.channel.seq.toNat
  · obtain ⟨d, hd, hdn⟩ := h n hn hn'
    exact ⟨d, List.mem_append_left _ hd, hdn⟩
  · -- a sequence number that starts again from zero counts nothing
    have heq : n = s.channel.seq + 1 := by
      refine UInt32.toNat_inj.mp ?_
      have h1 : (1 : UInt32).toNat = 1 := rfl
      rw [UInt32.toNat_add, h1] at hle ⊢
      omega
    exact ⟨m, by simp, by rw [← hid, heq]⟩

/-- A message that is not the next one. -/
theorem pending_holdBack_iff {s : Subscription} {a : Arrival}
    (hd : s.channel.DeliveredTo s.delivered) (hp : s.Pending) :
    Pending ⟨s.channel.holdBack a, s.arrived ++ [a.msg], s.delivered ++ []⟩ ↔
      (s.channel.seq + 1 < a.id.toUInt32 → ∀ d ∈ s.delivered, d.msgID ≠ a.id.toUInt32) := by
  rw [Pending, seq_holdBack, holdBack, List.append_nil]
  split_ifs with hgap
  · have hfind : ∀ k, (s.channel.addToHoldBackQueue a.id.toUInt32 a.msg).holdBackQueue.find? k =
        if k = a.id.toUInt32 then some (some a.msg) else s.channel.holdBackQueue.find? k :=
      fun k => OrdMap.find?_insert _ _ _ _
    constructor
    · intro hall _
      obtain ⟨_, m, _, _, _, hnew⟩ := hall a.id.toUInt32 (some a.msg) (by rw [hfind, if_pos rfl])
      exact hnew
    · intro hnew k v hk
      rw [hfind] at hk
      split_ifs at hk with heq
      · obtain rfl := Option.some.inj hk
        subst heq
        -- the comparison is made on 32 bits: past the last number everything was handed out
        have hlt : s.channel.seq.toNat + 1 < a.id.toUInt32.toNat := by
          have hlt32 := UInt32.lt_iff_toNat_lt.mp hgap
          have hpos : 0 < a.id.toUInt32.toNat := by omega
          by_cases hle : a.id.toUInt32.toNat ≤ s.channel.seq.toNat
          · obtain ⟨d, hdm, hdn⟩ := hd _ hpos hle
            exact absurd hdn (hnew hgap d hdm)
          · have hid := a.id.toUInt32.toNat_lt
            rw [UInt.toNat_succ32 (by omega)] at hlt32
            exact hlt32
        exact ⟨hlt, a.msg, rfl, rfl, by simp, hnew hgap⟩
      · obtain ⟨hlt, m, hv, hid, hm, hnot⟩ := hp k v hk
        exact ⟨hlt, m, hv, hid, List.mem_append_left _ hm, hnot⟩
  · refine iff_of_true (fun k v hk => ?_) fun h => absurd h hgap
    obtain ⟨hlt, m, hv, hid, hm, hnot⟩ := hp k v hk
    exact ⟨hlt, m, hv, hid, List.mem_append_left _ hm, hnot⟩

/-- **One message.** Whether the queue holds only what waits after a message is told by the
state before it. -/
theorem pending_next_iff {s s' : Subscription} {a : Arrival}
    (hd : s.channel.DeliveredTo s.delivered) (hp : s.Pending) (h : s.next a = some s') :
    (s'.Pending ↔ s.FindsNoGap a) ∧ (s'.Pending → s'.channel.DeliveredTo s'.delivered) := by
  obtain ⟨⟨p2, ms⟩, hrun, rfl⟩ := Option.map_eq_some_iff.mp h
  by_cases hnext : s.channel.seq + 1 = a.id.toUInt32
  · have hcond : s.FindsNoGap a ↔ (s.channel.setSeq (s.channel.seq + 1)).NoGap := by
      simp [FindsNoGap, hnext]
    rw [hcond]
    rcases redisSubMsgCallback_next hnext (waiting_succ hp) (deliveredTo_succ hd hnext) hrun with
      ⟨hempty, hgap, hdel⟩ | ⟨⟨k, hk⟩, hgap⟩
    · refine ⟨iff_of_true (fun k v hk => ?_) hgap, fun _ => hdel⟩
      rw [OrdMap.size_eq_zero_iff.mp hempty k] at hk
      cases hk
    · -- the null pointer is no message
      have hnot : ¬ Pending ⟨p2, s.arrived ++ [a.msg], s.delivered ++ ms⟩ := by
        intro hpend
        obtain ⟨_, m, hm, _⟩ := hpend k none hk
        cases hm
      exact ⟨iff_of_false hnot hgap, fun hpend => absurd hpend hnot⟩
  · rw [redisSubMsgCallback, if_neg hnext] at hrun
    obtain ⟨hp2, hms⟩ : s.channel.holdBack a = p2 ∧ [] = ms := by simpa using hrun
    subst hp2 hms
    refine ⟨?_, fun _ n hn hle => ?_⟩
    · have hcond : s.FindsNoGap a ↔ (s.channel.seq + 1 < a.id.toUInt32 →
          ∀ d ∈ s.delivered, d.msgID ≠ a.id.toUInt32) := by
        simp [FindsNoGap, hnext]
      rw [hcond]
      exact pending_holdBack_iff hd hp
    · change n.toNat ≤ (s.channel.holdBack a).seq.toNat at hle
      rw [seq_holdBack] at hle
      obtain ⟨d, hd', hdn⟩ := hd n hn hle
      exact ⟨d, List.mem_append_left _ hd', hdn⟩

/-- Every list of messages is a run. -/
theorem run_isSome (as : List Arrival) (s : Subscription) : (subscribing.run s as).isSome := by
  induction as generalizing s with
  | nil => rfl
  | cons a as ih =>
    obtain ⟨r, hr⟩ := Option.isSome_iff_exists.mp (redisSubMsgCallback_isSome s.channel a)
    show ((s.next a).bind _).isSome
    rw [next, hr]
    exact ih _

/-- **The queue holds what is pending.** In a run the queue never holds anything but messages
that have arrived and wait, and so is empty when no number beyond the sequence number has
arrived, if and only if every message of the run finds no gap behind it. -/
theorem holds_pending_iff (as : List Arrival) :
    (∀ bs s, bs <+: as → subscribing.run fresh bs = some s → s.Pending ∧
      ((∀ m ∈ s.arrived, m.msgID ≤ s.channel.seq) → s.channel.holdBackQueue.size = 0)) ↔
      subscribing.Allowed FindsNoGap fresh as := by
  obtain ⟨t, ht⟩ := Option.isSome_iff_exists.mp (run_isSome as fresh)
  have hinit : fresh.channel.DeliveredTo fresh.delivered := fun n hn hle => by
    change n.toNat ≤ 0 at hle
    omega
  have hpend : fresh.Pending := fun k v hk => by cases hk
  have hiff := System.allowed_iff_always (C := FindsNoGap)
    (fun s a s' hd hp hs' => pending_next_iff hd hp hs') as hinit hpend ht
  rw [hiff]
  constructor
  · intro h bs u hbs hu
    exact (h bs u hbs hu).1
  · intro h bs u hbs hu
    have hp : u.Pending := h bs u hbs hu
    exact ⟨hp, hp.size_eq_zero⟩

/-- Message 3 waits when message 1 arrives, and the lookup of number 2 leaves a null pointer. -/
theorem holds_null : ¬ ∀ (as : List Arrival) (s : Subscription),
    subscribing.run fresh as = some s → s.Pending := by
  intro hall
  have hrun : ∃ s, subscribing.run fresh [⟨3, [], 0⟩, ⟨1, [], 0⟩] = some s ∧
      s.channel.holdBackQueue.find? 2 = some none := ⟨_, rfl, rfl⟩
  obtain ⟨s, hs, hnull⟩ := hrun
  obtain ⟨_, m, hm, _⟩ := hall _ s hs 2 none hnull
  cases hm

end Subscription
end NanoRaft
