import NanoRaft.Buffers
import NanoRaft.Lib.System

/-!
# Sending

The output side of a connection. Whatever the three functions that queue a frame and the
write callback do with the results of `send`, the bytes the kernel has taken and the bytes
still buffered are together the frames queued so far (`stream_intact`): each function
either appends a frame and drops what was sent, or only the latter.
-/

namespace NanoRaft
namespace Buffer

variable {b : Buffer}

/-! ## Queueing a frame -/

/-- A frame that fits is appended to the content. -/
theorem queue_filled (hb : b.Filled) (dwMsgID : UInt16) {message : Bytes}
    (hfits : b.content.length + 6 + message.length ≤ bufferSize) :
    (b.queue dwMsgID message).Filled ∧
      (b.queue dwMsgID message).content = b.content ++ Frame.encode ⟨dwMsgID, message⟩ := by
  have hlength := hb.length
  have hcap : bufferSize = 1440 := rfl
  have hlen : (UInt32.ofNat message.length).toNat = message.length :=
    UInt.toNat_ofNat32 (by omega)
  have h2 : (b.size + 2).toInt = b.size.toInt + 2 := by
    have htwo : (2 : Int32).toInt = 2 := rfl
    rw [UInt.toInt_add32 (by omega) (by omega), htwo]
  have h6 : (b.size + 6).toInt = b.size.toInt + 6 := by
    have hsix : (6 : Int32).toInt = 6 := rfl
    rw [UInt.toInt_add32 (by omega) (by omega), hsix]
  have hword : (UInt32.ofNat message.length).toInt32.toInt = message.length := by
    rw [UInt.toInt_toInt32_of_lt (by omega), hlen]
  have hsize : (b.queue dwMsgID message).size.toInt = b.size.toInt + 6 + message.length := by
    show (b.size + 6 + (UInt32.ofNat message.length).toInt32).toInt = _
    rw [UInt.toInt_add32 (by omega) (by omega), h6, hword]
  refine ⟨⟨by omega, by omega⟩, ?_⟩
  have hn : (b.queue dwMsgID message).size.toInt.toNat =
      b.size.toInt.toNat + (LittleEndian.bytes 2 dwMsgID.toNat).length +
        (LittleEndian.bytes 4 message.length).length + message.length := by
    rw [LittleEndian.length_bytes, LittleEndian.length_bytes]
    omega
  -- each write appends to what the one before it left
  rw [content, hn, content, Frame.encode, queue, hlen, h2, h6, ← List.append_assoc,
    ← List.append_assoc, Memory.read_write_append _ _ (by
      rw [LittleEndian.length_bytes, LittleEndian.length_bytes]
      omega),
    Memory.read_write_append _ _ (by
      rw [LittleEndian.length_bytes]
      omega),
    Memory.read_write_append _ _ (by omega)]

/-! ## Dropping what was sent -/

/-- Moving what follows the first `k` bytes to the front drops them. -/
theorem content_compact (hb : b.Filled) {k : Int32} (hpos : 0 ≤ k.toInt)
    (hle : k.toInt ≤ b.size.toInt) :
    Filled ⟨b.mem.copy 0 k.toInt (b.size - k).toInt, b.size - k⟩ ∧
      content ⟨b.mem.copy 0 k.toInt (b.size - k).toInt, b.size - k⟩ =
        b.content.drop k.toInt.toNat := by
  have hfull := hb.2
  have hcap : (bufferSize : ℤ) = 1440 := rfl
  have hleft : (b.size - k).toInt = b.size.toInt - k.toInt :=
    UInt.toInt_sub32 (by omega) (by omega)
  refine ⟨⟨by rw [hleft]; omega, by rw [hleft]; omega⟩, ?_⟩
  have hn : ((b.size - k).toInt.toNat : ℤ) = (b.size - k).toInt := by omega
  have hk : (0 : ℤ) + (k.toInt.toNat : ℤ) = k.toInt := by omega
  have hrest : b.size.toInt.toNat - k.toInt.toNat = (b.size - k).toInt.toNat := by omega
  calc content ⟨b.mem.copy 0 k.toInt (b.size - k).toInt, b.size - k⟩
      = (b.mem.copy 0 k.toInt ((b.size - k).toInt.toNat : ℤ)).read 0 (b.size - k).toInt.toNat := by
        rw [hn, content]
    _ = b.mem.read k.toInt (b.size - k).toInt.toNat := Memory.read_copy _ _ _ _
    _ = b.content.drop k.toInt.toNat := by
        rw [content, Memory.drop_read _ _ (by omega), hk, hrest]

/-- With nothing left there is nothing to move. -/
theorem content_of_size_eq_zero {m : Memory} {size : Int32} (h : size.toInt = 0) :
    content ⟨m, size⟩ = [] := by
  rw [content]
  show m.read 0 size.toInt.toNat = []
  rw [h]
  rfl

/-- The code after the direct `send` drops the bytes sent. -/
theorem sentDirectly_filled (hb : b.Filled) {iSended : Int32} (hle : iSended ≤ b.size) :
    (b.sentDirectly iSended).Filled ∧
      (b.sentDirectly iSended).content = b.content.drop iSended.toInt.toNat := by
  have hle' := Int32.le_iff_toInt_le.mp hle
  have hfull := hb.2
  have hcap : (bufferSize : ℤ) = 1440 := rfl
  have hzero : (0 : Int32).toInt = 0 := rfl
  rw [sentDirectly]
  by_cases hpos : 0 < iSended
  · have hpos' := Int32.lt_iff_toInt_lt.mp hpos
    have hleft : (b.size - iSended).toInt = b.size.toInt - iSended.toInt :=
      UInt.toInt_sub32 (by omega) (by omega)
    rw [if_pos hpos]
    by_cases hmore : 0 < b.size - iSended
    · rw [if_pos hmore]
      exact content_compact hb (by omega) hle'
    · -- everything was sent
      rw [Int32.lt_iff_toInt_lt] at hmore
      have hnil : b.content.drop iSended.toInt.toNat = [] := by
        rw [List.drop_eq_nil_iff, length_content]
        omega
      rw [if_neg (by rw [Int32.lt_iff_toInt_lt]; exact hmore), hnil]
      exact ⟨⟨by show 0 ≤ (b.size - iSended).toInt; omega,
        by show (b.size - iSended).toInt ≤ _; omega⟩, content_of_size_eq_zero (by omega)⟩
  · rw [Int32.lt_iff_toInt_lt] at hpos
    have hnone : iSended.toInt.toNat = 0 := by omega
    rw [if_neg (by rw [Int32.lt_iff_toInt_lt]; exact hpos), hnone, List.drop_zero]
    exact ⟨hb, rfl⟩

/-- The write callback with its own bookkeeping comes to the same. -/
theorem sendCallback_eq {iSended : Int32} (hle : iSended ≤ b.size) :
    b.sendCallback iSended = b.sentDirectly iSended := by
  have hle' := Int32.le_iff_toInt_le.mp hle
  rw [sendCallback, sentDirectly]
  by_cases hempty : b.size ≤ 0
  · have hnone : ¬ 0 < iSended := by
      rw [Int32.le_iff_toInt_le] at hempty
      rw [Int32.lt_iff_toInt_lt]
      omega
    rw [if_pos hempty, if_neg hnone]
  · rw [if_neg hempty]
    by_cases hall : b.size - iSended = 0
    · simp only [hall, if_true, Int32.lt_irrefl, if_false]
    · simp only [hall, if_false]

end Buffer

/-! ## The outgoing stream -/

/-- The output side of a connection: the buffer, the bytes the kernel has accepted and the
frames queued. -/
structure Sender where
  buffer : Buffer
  accepted : Bytes
  queued : List Frame

/-- The calls that touch the output buffer, each with the result of its `send`. -/
inductive SendEvent where
  | handlePreSendMsg (dwID : UInt16) (message : Bytes) (iSended : Int32)
  | sendAppendEntries (message : Bytes) (iSended : Int32)
  | sendHandShakeQ (message : Bytes) (iSended : Int32)
  | sendCallback (iSended : Int32)

namespace Sender

/-- A frame is queued and `send` called on all that is buffered; it takes at most that. -/
def push (s : Sender) (f : Frame) (iSended : Int32) (b : Buffer) : Option Sender :=
  let q := s.buffer.queue f.id f.payload
  if iSended ≤ q.size then
    some {
      buffer := b
      accepted := s.accepted ++ q.content.take iSended.toInt.toNat
      queued := s.queued ++ [f] }
  else none

def next (s : Sender) : SendEvent → Option Sender
  | .handlePreSendMsg dwID message iSended =>
    s.push ⟨dwID, message⟩ iSended (s.buffer.handlePreSendMsg dwID message iSended)
  | .sendAppendEntries message iSended =>
    s.push ⟨259, message⟩ iSended (s.buffer.sendAppendEntries message iSended)
  | .sendHandShakeQ message iSended =>
    s.push ⟨257, message⟩ iSended (s.buffer.sendHandShakeQ message iSended)
  | .sendCallback iSended =>
    -- an empty buffer is not sent at all
    if s.buffer.size ≤ 0 then some { s with buffer := s.buffer.sendCallback iSended }
    else if iSended ≤ s.buffer.size then
      some { s with
        buffer := s.buffer.sendCallback iSended
        accepted := s.accepted ++ s.buffer.content.take iSended.toInt.toNat }
    else none

/-- The output history of a fresh `Conn`. -/
def sending : System Sender SendEvent where
  init s := s.buffer.size = 0 ∧ s.accepted = [] ∧ s.queued = []
  next := next

/-- The bytes buffered with a new frame fit into the buffer. -/
def Fits (s : Sender) : SendEvent → Prop
  | .handlePreSendMsg _ message _ => s.buffer.content.length + 6 + message.length ≤ bufferSize
  | .sendAppendEntries message _ => s.buffer.content.length + 6 + message.length ≤ bufferSize
  | .sendHandShakeQ message _ => s.buffer.content.length + 6 + message.length ≤ bufferSize
  | .sendCallback _ => True

instance decidableFits (s : Sender) : (e : SendEvent) → Decidable (s.Fits e)
  | .handlePreSendMsg _ message _ =>
    inferInstanceAs (Decidable (s.buffer.content.length + 6 + message.length ≤ bufferSize))
  | .sendAppendEntries message _ =>
    inferInstanceAs (Decidable (s.buffer.content.length + 6 + message.length ≤ bufferSize))
  | .sendHandShakeQ message _ =>
    inferInstanceAs (Decidable (s.buffer.content.length + 6 + message.length ≤ bufferSize))
  | .sendCallback _ => isTrue trivial

/-- What was accepted and what is buffered are the frames queued. -/
structure Intact (s : Sender) : Prop where
  filled : s.buffer.Filled
  stream : s.accepted ++ s.buffer.content = s.queued.flatMap Frame.encode

variable {s s' : Sender}

/-- Queueing a frame and sending directly keeps the stream. -/
theorem Intact.push (h : s.Intact) {f : Frame} {iSended : Int32}
    (hfits : s.buffer.content.length + 6 + f.payload.length ≤ bufferSize)
    (hs : s.push f iSended ((s.buffer.queue f.id f.payload).sentDirectly iSended) = some s') :
    s'.Intact := by
  simp only [Sender.push, Option.ite_none_right_eq_some, Option.some.injEq] at hs
  obtain ⟨hle, rfl⟩ := hs
  obtain ⟨hq, hcontent⟩ := Buffer.queue_filled h.filled f.id hfits
  obtain ⟨hfilled, hrest⟩ := Buffer.sentDirectly_filled hq hle
  refine ⟨hfilled, ?_⟩
  rw [hrest, List.append_assoc, List.take_append_drop, hcontent, ← List.append_assoc, h.stream,
    List.flatMap_append, List.flatMap_singleton]

/-- So does the write callback. -/
theorem Intact.sendCallback (h : s.Intact) {iSended : Int32}
    (hs : s.next (.sendCallback iSended) = some s') : s'.Intact := by
  rw [next] at hs
  by_cases hempty : s.buffer.size ≤ 0
  · rw [if_pos hempty] at hs
    obtain rfl := Option.some.inj hs
    rw [Buffer.sendCallback, if_pos hempty]
    exact h
  · rw [if_neg hempty, Option.ite_none_right_eq_some] at hs
    obtain ⟨hle, hs⟩ := hs
    obtain rfl := Option.some.inj hs
    obtain ⟨hfilled, hrest⟩ := Buffer.sentDirectly_filled h.filled hle
    rw [Buffer.sendCallback_eq hle]
    refine ⟨hfilled, ?_⟩
    rw [hrest, List.append_assoc, List.take_append_drop, h.stream]

theorem intact_of_init (h : sending.init s) : s.Intact := by
  obtain ⟨hsize, hacc, hq⟩ := h
  refine ⟨?_, ?_⟩
  · rw [Buffer.Filled, hsize]
    exact ⟨by decide, by decide⟩
  · rw [hacc, hq, List.nil_append]
    exact Buffer.content_of_size_eq_zero (by rw [hsize]; rfl)

/-- The three functions that queue a frame do the same with it. -/
theorem Intact.next {e : SendEvent} (h : s.Intact) (hfits : s.Fits e)
    (hn : sending.next s e = some s') : s'.Intact := by
  cases e with
  | handlePreSendMsg dwID message iSended => exact h.push (f := ⟨dwID, message⟩) hfits hn
  | sendAppendEntries message iSended => exact h.push (f := ⟨259, message⟩) hfits hn
  | sendHandShakeQ message iSended => exact h.push (f := ⟨257, message⟩) hfits hn
  | sendCallback iSended => exact h.sendCallback hn

/-- A connection on which nothing was queued yet. -/
def empty : Sender := ⟨⟨fun _ => 0, 0⟩, [], []⟩

theorem reachable_empty {C : Sender → SendEvent → Prop} : sending.Reachable C empty :=
  System.reachable_init ⟨rfl, rfl, rfl⟩

end Sender
end NanoRaft
