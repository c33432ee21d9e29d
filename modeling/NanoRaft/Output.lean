import NanoRaft.Transmit

/-!
# Queueing output

The accesses that the three functions which queue a frame, and the write callback, make to
`m_stOutBuffer_`. None of them looks at the room that is left.

* `queues_inside_iff`: in which runs all of them stay inside the buffer.
-/

namespace NanoRaft
namespace Buffer

/-- The three writes of a frame. -/
def queueAccesses (b : Buffer) (message : Bytes) : List Access :=
  [⟨b.size.toInt, 2⟩, ⟨(b.size + 2).toInt, 4⟩, ⟨(b.size + 6).toInt, message.length⟩]

/-- What `send` reads, and both sides of the copy if something is left. -/
def sendAccesses (b : Buffer) (iSended : Int32) : List Access :=
  ⟨0, b.size.toInt⟩ ::
    if 0 < iSended ∧ 0 < b.size - iSended then
      [⟨iSended.toInt, (b.size - iSended).toInt⟩, ⟨0, (b.size - iSended).toInt⟩]
    else []

variable {b : Buffer} {message : Bytes} {iSended : Int32}

/-- The writes stay inside exactly if the frame fits behind what is buffered. -/
theorem queueAccesses_inside_iff (hb : b.Filled) :
    (∀ a ∈ b.queueAccesses message, a.Inside) ↔
      b.content.length + 6 + message.length ≤ bufferSize := by
  have hlength := hb.length
  have hlow := hb.1
  have hfull := hb.2
  have hcap : bufferSize = 1440 := rfl
  have h2 : (b.size + 2).toInt = b.size.toInt + 2 := by
    have htwo : (2 : Int32).toInt = 2 := rfl
    rw [UInt.toInt_add32 (by omega) (by omega), htwo]
  have h6 : (b.size + 6).toInt = b.size.toInt + 6 := by
    have hsix : (6 : Int32).toInt = 6 := rfl
    rw [UInt.toInt_add32 (by omega) (by omega), hsix]
  unfold queueAccesses
  simp only [List.forall_mem_cons, h2, h6, Access.Inside, List.not_mem_nil, false_imp_iff,
    implies_true, and_true]
  omega

/-- Sending from a buffer that is not overfull stays inside. -/
theorem sendAccesses_inside (hb : b.Filled) (hle : iSended ≤ b.size) :
    ∀ a ∈ b.sendAccesses iSended, a.Inside := by
  have hle' := Int32.le_iff_toInt_le.mp hle
  have hlow := hb.1
  have hfull := hb.2
  have hcap : (bufferSize : ℤ) = 1440 := rfl
  have hall : Access.Inside ⟨0, b.size.toInt⟩ := by
    unfold Access.Inside
    dsimp only
    omega
  unfold sendAccesses
  rw [List.forall_mem_cons]
  refine ⟨hall, ?_⟩
  split_ifs with hmove
  · obtain ⟨hpos, hmore⟩ := hmove
    have hpos' : 0 < iSended.toInt := Int32.lt_iff_toInt_lt.mp hpos
    have hmore' : 0 < (b.size - iSended).toInt := Int32.lt_iff_toInt_lt.mp hmore
    have hleft : (b.size - iSended).toInt = b.size.toInt - iSended.toInt :=
      UInt.toInt_sub32 (by omega) (by omega)
    simp only [List.forall_mem_cons, Access.Inside, List.not_mem_nil, false_imp_iff,
      implies_true, and_true]
    omega
  · exact fun a ha => absurd ha List.not_mem_nil

end Buffer

namespace Sender

variable {s s' : Sender} {e : SendEvent}

/-- Queue a frame and send. -/
def pushAccesses (s : Sender) (f : Frame) (iSended : Int32) : List Access :=
  s.buffer.queueAccesses f.payload ++ (s.buffer.queue f.id f.payload).sendAccesses iSended

/-- The accesses an event makes. -/
def accessesOf (s : Sender) : SendEvent → List Access
  | .handlePreSendMsg dwID message iSended => s.pushAccesses ⟨dwID, message⟩ iSended
  | .sendAppendEntries message iSended => s.pushAccesses ⟨259, message⟩ iSended
  | .sendHandShakeQ message iSended => s.pushAccesses ⟨257, message⟩ iSended
  | .sendCallback iSended =>
    if s.buffer.size ≤ 0 then [] else s.buffer.sendAccesses iSended

/-- The event leaves the outgoing stream as it is, its message refused. -/
def Refuses (s : Sender) (e : SendEvent) : Prop :=
  ∀ s', s.next e = some s' →
    s'.queued = s.queued ∧ s'.accepted ++ s'.buffer.content = s.accepted ++ s.buffer.content

/-- All accesses are inside, and a message that does not fit is refused. -/
def QueuesInside (s : Sender) (e : SendEvent) : Prop :=
  (∀ a ∈ s.accessesOf e, a.Inside) ∧ (¬ s.Fits e → s.Refuses e)

theorem pushAccesses_inside_iff {f : Frame} {iSended : Int32} (hb : s.buffer.Filled)
    (hs : s.push f iSended ((s.buffer.queue f.id f.payload).sentDirectly iSended) = some s') :
    (∀ a ∈ s.pushAccesses f iSended, a.Inside) ↔
      s.buffer.content.length + 6 + f.payload.length ≤ bufferSize := by
  unfold push at hs
  rw [Option.ite_none_right_eq_some] at hs
  obtain ⟨hle, _⟩ := hs
  have hqueue : (∀ a ∈ s.buffer.queueAccesses f.payload, a.Inside) ↔
      s.buffer.content.length + 6 + f.payload.length ≤ bufferSize :=
    Buffer.queueAccesses_inside_iff hb
  rw [← hqueue]
  unfold pushAccesses
  rw [List.forall_mem_append]
  apply and_iff_left_of_imp
  intro hinside
  exact Buffer.sendAccesses_inside (Buffer.queue_filled hb f.id (hqueue.mp hinside)).1 hle

/-- Which events make only accesses inside the buffer. -/
theorem accessesOf_inside_iff (hb : s.buffer.Filled) (hn : sending.next s e = some s') :
    (∀ a ∈ s.accessesOf e, a.Inside) ↔ s.Fits e := by
  cases e with
  | handlePreSendMsg dwID message iSended => exact pushAccesses_inside_iff hb hn
  | sendAppendEntries message iSended => exact pushAccesses_inside_iff hb hn
  | sendHandShakeQ message iSended => exact pushAccesses_inside_iff hb hn
  | sendCallback iSended =>
    apply iff_of_true _ trivial
    unfold accessesOf
    split_ifs with hempty
    · exact fun a ha => absurd ha List.not_mem_nil
    · change (if s.buffer.size ≤ 0 then _ else _) = some s' at hn
      rw [if_neg hempty, Option.ite_none_right_eq_some] at hn
      exact Buffer.sendAccesses_inside hb hn.1

/-- **The output buffer.** In a run on a fresh connection every access stays inside, and what
does not fit is refused, if and only if every message fits: nothing is ever refused. -/
theorem queues_inside_iff {t : Sender} {es : List SendEvent} (hinit : sending.init s)
    (hrun : sending.run s es = some t) :
    sending.Allowed QueuesInside s es ↔ sending.Allowed Fits s es := by
  apply System.allowed_congr (K := Intact) _ es (intact_of_init hinit) hrun
  intro s e s' hintact hn
  have hiff := accessesOf_inside_iff hintact.filled hn
  refine ⟨?_, fun hfits => hintact.next hfits hn⟩
  unfold QueuesInside
  rw [hiff]
  exact and_iff_left_of_imp fun hfits hno => absurd hfits hno

/-- The answer to a handshake, of which the peer takes nothing. -/
def refused : SendEvent := .handlePreSendMsg 258 [8, 1] (-1)

/-- Two answers wait in the buffer. -/
theorem queues_inside_two : sending.Allowed QueuesInside empty [refused, refused] := by
  have hrun : ((sending.run empty [refused, refused]).any fun _ => true) = true := by
    decide +kernel
  obtain ⟨t, ht, _⟩ := (Option.any_eq_true _ _).mp hrun
  exact (queues_inside_iff ⟨rfl, rfl, rfl⟩ ht).mpr (by decide +kernel)

/-- 180 answers fill the buffer, and the next one is written behind it. -/
theorem queues_past_end : ¬ ∀ s es t, sending.init s → sending.run s es = some t →
    sending.Allowed QueuesInside s es := by
  intro hall
  have hrun : ((sending.run empty (List.replicate 180 refused)).any fun t =>
      decide (t.buffer.size = 1440) && (sending.next t refused).isSome) = true := by
    decide +kernel
  obtain ⟨t, ht, htest⟩ := (Option.any_eq_true _ _).mp hrun
  rw [Bool.and_eq_true, decide_eq_true_iff] at htest
  obtain ⟨hsize, hnext⟩ := htest
  obtain ⟨t', ht'⟩ := Option.isSome_iff_exists.mp hnext
  have hlast : sending.run empty (List.replicate 180 refused ++ [refused]) = some t' := by
    rw [System.run_append, ht, Option.bind_some, System.run, ht']
    rfl
  have hinside := (System.allowed_iff_forall _ _).mp (hall empty _ _ ⟨rfl, rfl, rfl⟩ hlast)
    (List.replicate 180 refused) refused t (List.prefix_refl _) ht
  have hwrite := hinside.1 ⟨t.buffer.size.toInt, 2⟩ (List.mem_cons_self ..)
  rw [hsize] at hwrite
  exact absurd hwrite (by decide)

end Sender
end NanoRaft
