import NanoRaft.Dispatch
import NanoRaft.Output

/-!
# Compaction

The copies that move what is left in a buffer to its front: one for each message taken off
the input buffer, and one for each partial `send` from the output buffer. They are made with
`memcpy`.

* `moves_apart_iff`: in which runs on the two buffers of a connection no copy overlaps itself.
-/

namespace NanoRaft

/-- The arguments of a `memcpy` inside a buffer, as offsets. -/
structure Move where
  dst : ℤ
  src : ℤ
  count : ℤ
  deriving DecidableEq, Repr

/-- The two ranges do not overlap. -/
def Move.Apart (m : Move) : Prop := Memory.Separate m.dst m.src m.count

instance Move.decidableApart (m : Move) : Decidable m.Apart :=
  inferInstanceAs (Decidable (Memory.Separate _ _ _))

theorem Move.apart_mk (dst src count : ℤ) :
    Move.Apart ⟨dst, src, count⟩ ↔ Memory.Separate dst src count := Iff.rfl

namespace Buffer

variable {b : Buffer} {iSended : Int32}

/-- The message at the front is complete and of a known type, so that it is taken off. -/
def TakesOff (b : Buffer) : Prop := b.Complete ∧ Mod.HasMessage b.dwID

instance decidableTakesOff (b : Buffer) : Decidable b.TakesOff :=
  inferInstanceAs (Decidable (_ ∧ _))

/-- The copy of one iteration of `HandleArrivedMsg`. -/
def arrivedMoves (b : Buffer) : List Move :=
  if b.TakesOff then [⟨0, (b.dwLen + 6).toInt32.toInt, b.iLeftSize.toInt⟩] else []

/-- The copy after a `send`, if something is left. -/
def sentMoves (b : Buffer) (iSended : Int32) : List Move :=
  if 0 < iSended ∧ 0 < b.size - iSended then
    [⟨0, iSended.toInt, (b.size - iSended).toInt⟩]
  else []

/-- The bytes buffered, a new frame with its header included. -/
def sizeWith (b : Buffer) (message : Bytes) : Int32 :=
  ((b.size + 6).toUInt32 + UInt32.ofNat message.length).toInt32

/-- What is left is apart from the front if the message taken off is at least half of what is
buffered. -/
theorem arrivedMoves_apart_iff :
    (∀ m ∈ b.arrivedMoves, m.Apart) ↔
      (b.TakesOff → b.size.toInt ≤ 2 * (b.dwLen + 6).toInt32.toInt) := by
  unfold arrivedMoves
  by_cases htake : b.TakesOff
  · rw [if_pos htake, List.forall_mem_singleton, forall_prop_of_true htake, Move.apart_mk]
    obtain ⟨⟨h6, hcomplete⟩, _⟩ := htake
    rw [size_lt_six_iff] at h6
    rw [Int32.lt_iff_toInt_lt] at hcomplete
    change ¬ b.size.toInt < (b.dwLen + 6).toInt32.toInt at hcomplete
    have hlow := Int32.minValue_le_toInt (b.dwLen + 6).toInt32
    have hhigh := Int32.toInt_le b.size
    have hmin : Int32.minValue.toInt = -2 ^ 31 := rfl
    have hmax : Int32.maxValue.toInt = 2 ^ 31 - 1 := rfl
    by_cases hneg : 0 ≤ (b.dwLen + 6).toInt32.toInt
    · have hsub : b.iLeftSize = b.size - (b.dwLen + 6).toInt32 := rfl
      rw [hsub, UInt.toInt_sub32 (by omega) (by omega)]
      apply Memory.separate_rest_iff hneg
      omega
    · -- the source is before the buffer, and the copy reaches into it or has no range
      have hleft : b.iLeftSize.toInt = (b.size.toInt - (b.dwLen + 6).toInt32.toInt).bmod (2 ^ 32) :=
        Int32.toInt_sub _ _
      rw [Int.bmod_def] at hleft
      unfold Memory.Separate
      omega
  · rw [if_neg htake]
    exact iff_of_true (fun m hm => absurd hm List.not_mem_nil) fun h => absurd h htake

/-- What is left is apart from the front if at least half of what was buffered has been
sent. -/
theorem sentMoves_apart_iff (hle : 0 < iSended → iSended ≤ b.size) :
    (∀ m ∈ b.sentMoves iSended, m.Apart) ↔
      (0 < iSended → b.size.toInt ≤ 2 * iSended.toInt) := by
  unfold sentMoves
  by_cases hpos : 0 < iSended
  · rw [forall_prop_of_true hpos]
    have hle' := Int32.le_iff_toInt_le.mp (hle hpos)
    have hpos' : 0 < iSended.toInt := Int32.lt_iff_toInt_lt.mp hpos
    have hhigh := Int32.toInt_le b.size
    have hmax : Int32.maxValue.toInt = 2 ^ 31 - 1 := rfl
    have hleft : (b.size - iSended).toInt = b.size.toInt - iSended.toInt :=
      UInt.toInt_sub32 (by omega) (by omega)
    by_cases hmore : 0 < b.size - iSended
    · rw [if_pos ⟨hpos, hmore⟩, List.forall_mem_singleton, Move.apart_mk, hleft]
      apply Memory.separate_rest_iff _ hle'
      omega
    · rw [if_neg fun h => hmore h.2]
      have hall : ¬ 0 < (b.size - iSended).toInt := fun h => hmore (Int32.lt_iff_toInt_lt.mpr h)
      apply iff_of_true
      · exact fun m hm => absurd hm List.not_mem_nil
      · omega
  · rw [if_neg fun h => hpos h.1]
    apply iff_of_true
    · exact fun m hm => absurd hm List.not_mem_nil
    · exact fun h => absurd h hpos

end Buffer

/-! ## The copies of an event -/

/-- The copy that an event on the input buffer makes. -/
def Receiver.movesOf (s : Receiver) : RecvEvent → List Move
  | .recv _ => []
  | .iterate => s.buffer.arrivedMoves

namespace Sender

/-- What `send` is called on. -/
def outBuffer (s : Sender) : SendEvent → Buffer
  | .handlePreSendMsg dwID message _ => s.buffer.queue dwID message
  | .sendAppendEntries message _ => s.buffer.queue 259 message
  | .sendHandShakeQ message _ => s.buffer.queue 257 message
  | .sendCallback _ => s.buffer

/-- The result of that `send`; an empty buffer is not sent. -/
def sended (s : Sender) : SendEvent → Int32
  | .handlePreSendMsg _ _ iSended => iSended
  | .sendAppendEntries _ iSended => iSended
  | .sendHandShakeQ _ iSended => iSended
  | .sendCallback iSended => if s.buffer.size ≤ 0 then 0 else iSended

/-- The bytes it is asked to take. -/
def buffered (s : Sender) : SendEvent → Int32
  | .handlePreSendMsg _ message _ => s.buffer.sizeWith message
  | .sendAppendEntries message _ => s.buffer.sizeWith message
  | .sendHandShakeQ message _ => s.buffer.sizeWith message
  | .sendCallback _ => s.buffer.size

/-- The copy that an event on the output buffer makes. -/
def movesOf (s : Sender) (e : SendEvent) : List Move := (s.outBuffer e).sentMoves (s.sended e)

theorem size_outBuffer (s : Sender) (e : SendEvent) : (s.outBuffer e).size = s.buffered e := by
  cases e <;> rfl

/-- `send` takes at most what it is asked to. -/
theorem sended_le {s s' : Sender} {e : SendEvent} (h : sending.next s e = some s')
    (hpos : 0 < s.sended e) : s.sended e ≤ s.buffered e := by
  cases e with
  | sendCallback iSended =>
    change (if s.buffer.size ≤ 0 then _ else _) = some s' at h
    change 0 < (if s.buffer.size ≤ 0 then 0 else iSended) at hpos
    show (if s.buffer.size ≤ 0 then 0 else iSended) ≤ s.buffer.size
    by_cases hempty : s.buffer.size ≤ 0
    · rw [if_pos hempty] at hpos
      exact absurd hpos (by decide)
    · rw [if_neg hempty, Option.ite_none_right_eq_some] at h
      rw [if_neg hempty]
      exact h.1
  | handlePreSendMsg _ _ _ | sendAppendEntries _ _ | sendHandShakeQ _ _ =>
    change (if _ then _ else _) = some s' at h
    rw [Option.ite_none_right_eq_some] at h
    exact h.1

theorem movesOf_apart_iff {s s' : Sender} {e : SendEvent} (h : sending.next s e = some s') :
    (∀ m ∈ s.movesOf e, m.Apart) ↔
      (0 < s.sended e → (s.buffered e).toInt ≤ 2 * (s.sended e).toInt) := by
  rw [← size_outBuffer]
  apply Buffer.sentMoves_apart_iff
  rw [size_outBuffer]
  exact sended_le h

end Sender

/-- The input and the output buffer of a connection. -/
def duplex : System (Receiver × Sender) (RecvEvent ⊕ SendEvent) :=
  Receiver.receiving.both Sender.sending

/-- No copy of the event overlaps itself. -/
def MovesApart : Receiver × Sender → RecvEvent ⊕ SendEvent → Prop
  | (r, _), .inl e => ∀ m ∈ r.movesOf e, m.Apart
  | (_, s), .inr e => ∀ m ∈ s.movesOf e, m.Apart

/-- The message that is taken off, or what the `send` has taken, is at least half of what was
buffered. -/
def TakesHalf : Receiver × Sender → RecvEvent ⊕ SendEvent → Prop
  | _, .inl (.recv _) => True
  | (r, _), .inl .iterate =>
    r.buffer.TakesOff → r.buffer.size.toInt ≤ 2 * (r.buffer.dwLen + 6).toInt32.toInt
  | (_, s), .inr e => 0 < s.sended e → (s.buffered e).toInt ≤ 2 * (s.sended e).toInt

instance decidableTakesHalf :
    (p : Receiver × Sender) → (e : RecvEvent ⊕ SendEvent) → Decidable (TakesHalf p e)
  | _, .inl (.recv _) => isTrue trivial
  | (_, _), .inl .iterate => inferInstanceAs (Decidable (_ → _))
  | (_, _), .inr _ => inferInstanceAs (Decidable (_ → _))

/-- **One event**, in whatever state the buffers are. -/
theorem movesApart_iff {p p' : Receiver × Sender} {e : RecvEvent ⊕ SendEvent}
    (h : duplex.next p e = some p') : MovesApart p e ↔ TakesHalf p e := by
  match p, e, h with
  | (r, s), .inl (.recv chunk), _ =>
    exact iff_of_true (fun m hm => absurd hm List.not_mem_nil) trivial
  | (r, s), .inl .iterate, _ => exact Buffer.arrivedMoves_apart_iff
  | (r, s), .inr e, h => exact Sender.movesOf_apart_iff (System.both_next_inr h)

/-- **Compaction.** In a run on the buffers of a connection every copy is between ranges that
do not overlap if and only if every message taken off, and every partial `send`, is at least
half of what is buffered then. -/
theorem moves_apart_iff {p q : Receiver × Sender} {es : List (RecvEvent ⊕ SendEvent)}
    (hrun : duplex.run p es = some q) :
    duplex.Allowed MovesApart p es ↔ duplex.Allowed TakesHalf p es :=
  System.allowed_congr (K := fun _ => True) (fun _ _ _ _ hn => ⟨movesApart_iff hn, fun _ => trivial⟩)
    es trivial hrun

/-- A fresh connection. -/
def quiet : Receiver × Sender := (Receiver.empty, Sender.empty)

/-- A message, the beginning of the next one, and an answer sent in two equal parts. -/
theorem moves_apart_halves : duplex.Allowed MovesApart quiet
    [.inl (.recv [2, 1, 2, 0, 0, 0, 8, 1, 2, 1]), .inl .iterate,
      .inr (.handlePreSendMsg 258 [8, 1] 4), .inr (.sendCallback 4)] := by
  have hrun : ((duplex.run quiet
      [.inl (.recv [2, 1, 2, 0, 0, 0, 8, 1, 2, 1]), .inl .iterate,
        .inr (.handlePreSendMsg 258 [8, 1] 4), .inr (.sendCallback 4)]).any fun _ => true) = true := by
    decide +kernel
  obtain ⟨q, hq, _⟩ := (Option.any_eq_true _ _).mp hrun
  exact (moves_apart_iff hq).mpr (by decide +kernel)

/-- Of an answer of 8 bytes, `send` takes 3. -/
theorem moves_overlap : ¬ ∀ p es q, duplex.init p → duplex.run p es = some q →
    duplex.Allowed MovesApart p es := by
  intro hall
  have hrun : ((duplex.run quiet [.inr (.handlePreSendMsg 258 [8, 1] 3)]).any fun _ => true) = true := by
    decide +kernel
  obtain ⟨q, hq, _⟩ := (Option.any_eq_true _ _).mp hrun
  have hapart := (hall quiet _ q ⟨⟨rfl, rfl, rfl⟩, rfl, rfl, rfl⟩ hq).1
  exact absurd (hapart ⟨0, 3, 5⟩ (by decide +kernel)) (by decide)

end NanoRaft
