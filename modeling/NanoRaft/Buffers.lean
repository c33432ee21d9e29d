import NanoRaft.Lib.Framing
import NanoRaft.Lib.Memory
import NanoRaft.RaftServer

/-!
# The buffers of a connection

`m_stInBuffer_` and `m_stOutBuffer_` of a `Conn` with the code that moves bytes through
them: `RecvCallback` and the loop of `HandleArrivedMsg` on the input side, and the four
functions that fill or drain the output buffer.

The sizes are the C++ `int`s and the lengths in the headers `uint32_t`s, converted where
the source converts them; signed overflow is taken to wrap around. What `recv` and `send`
return is an input, and the compaction copies have the meaning of `memmove`.
-/

namespace NanoRaft

/-- A static buffer of 1440 bytes, with the memory around it, and its fill level. -/
structure Buffer where
  mem : Memory
  size : Int32

/-- The size both buffers are constructed with. -/
def bufferSize : ℕ := 1440

/-- An access to a buffer: the offset and the byte count, as the code passes them. -/
structure Access where
  off : ℤ
  count : ℤ
  deriving DecidableEq, Repr

/-- Every byte accessed lies in the buffer. A negative count is no range: `memcpy` takes it
for a huge one, and the parser reads on without an end. -/
def Access.Inside (a : Access) : Prop :=
  a.count = 0 ∨ (0 < a.count ∧ 0 ≤ a.off ∧ a.off + a.count ≤ bufferSize)

instance Access.decidableInside (a : Access) : Decidable a.Inside :=
  inferInstanceAs (Decidable (_ ∨ _))

/-- A message as it is put on the wire. -/
structure Frame where
  id : UInt16
  payload : Bytes
  deriving DecidableEq, Repr

/-- 2-byte id, 4-byte length, payload. -/
def Frame.encode (f : Frame) : Bytes :=
  LittleEndian.bytes 2 f.id.toNat ++ LittleEndian.bytes 4 f.payload.length ++ f.payload

/-! ## The message tables -/

/-- The message types named in `Mod::LoadMsg`. -/
inductive MessageType where
  | handshake_q
  | handshake_r
  | appendentries_q
  | appendentries_r
  | requestvote_q
  | requestvote_r
  deriving DecidableEq, Repr

namespace Mod

/-- `s_stMessages` after `LoadMsg`. -/
def s_stMessages : List (List MessageType) :=
  [[.handshake_q, .handshake_r, .appendentries_q, .appendentries_r, .requestvote_q,
    .requestvote_r]]

/-- `s_stMods` after `LoadMsg`: the handlers in `m_stProcs_` of the one module. -/
def s_stMods : List (List MessageType) :=
  [[.handshake_q, .handshake_r, .appendentries_q, .appendentries_r, .requestvote_q]]

/-- `(*(table[i]))[j]`; `none` is an access outside one of the two vectors. -/
def lookup (table : List (List MessageType)) (i j : ℤ) : Option MessageType :=
  if 0 ≤ i ∧ 0 ≤ j then table[i.toNat]?.bind fun row => row[j.toNat]? else none

def iMainID (dwID : UInt16) : ℤ := dwID.toNat / 256 - 1

def dwSubID (dwID : UInt16) : ℤ := dwID.toNat % 256 - 1

/-- The id has a message type. -/
def HasMessage (dwID : UInt16) : Prop :=
  (lookup s_stMessages (iMainID dwID) (dwSubID dwID)).isSome

/-- The id has a message type and a handler. Id 262 has a type but no handler, so that it counts
as outside the tables. -/
def Registered (dwID : UInt16) : Prop :=
  HasMessage dwID ∧ (lookup s_stMods (iMainID dwID) (dwSubID dwID)).isSome

instance decidableHasMessage (dwID : UInt16) : Decidable (HasMessage dwID) :=
  inferInstanceAs (Decidable (_ = true))

instance decidableRegistered (dwID : UInt16) : Decidable (Registered dwID) :=
  inferInstanceAs (Decidable (_ ∧ _ = true))

end Mod

namespace Buffer

/-- The used bytes. -/
def content (b : Buffer) : Bytes := b.mem.read 0 b.size.toInt.toNat

/-- The fill level is one the buffer can have. -/
def Filled (b : Buffer) : Prop := 0 ≤ b.size.toInt ∧ b.size.toInt ≤ bufferSize

theorem length_content (b : Buffer) : b.content.length = b.size.toInt.toNat := by
  rw [content, Memory.length_read]

theorem Filled.length {b : Buffer} (h : b.Filled) : (b.content.length : ℤ) = b.size.toInt := by
  have hb := h.1
  rw [length_content]
  omega

/-! ## Receiving -/

/-- The header at the front: the id. -/
def dwID (b : Buffer) : UInt16 := UInt16.ofNat (LittleEndian.value (b.mem.read 0 2))

/-- The header at the front: the length of the payload. -/
def dwLen (b : Buffer) : UInt32 := UInt32.ofNat (LittleEndian.value (b.mem.read 2 4))

/-- The bytes handed to `ParseFromArray`, whose size argument is an `int`. -/
def payload (b : Buffer) : Bytes := b.mem.read 6 b.dwLen.toInt32.toInt.toNat

/-- The subtraction is made on `uint32_t` and the result taken for an `int`. -/
def iLeftSize (b : Buffer) : Int32 := (b.size.toUInt32 - (b.dwLen + 6)).toInt32

/-- Move what follows the message to the front. -/
def takeOff (b : Buffer) : Buffer where
  mem := b.mem.copy 0 (b.dwLen + 6).toInt32.toInt b.iLeftSize.toInt
  size := b.iLeftSize

/-- What one iteration of the loop in `HandleArrivedMsg` does. -/
inductive Arrived where
  | returned
  /-- An index outside the message or handler tables. -/
  | outOfTables
  /-- `Proc` is called. -/
  | dispatched (f : Frame) (b : Buffer)

/-- One iteration of `HandleArrivedMsg`. -/
def arrivedMsg (b : Buffer) : Arrived :=
  if b.size < 6 then .returned
  else if b.size < b.dwLen.toInt32 + 6 then .returned
  else if Mod.Registered b.dwID then .dispatched ⟨b.dwID, b.payload⟩ b.takeOff
  else .outOfTables

/-- The accesses of one iteration: the two header fields, the payload that is parsed, and
both sides of the copy. -/
def arrivedAccesses (b : Buffer) : List Access :=
  if b.size < 6 then []
  else if b.size < b.dwLen.toInt32 + 6 ∨ ¬ Mod.HasMessage b.dwID then [⟨0, 2⟩, ⟨2, 4⟩]
  else [⟨0, 2⟩, ⟨2, 4⟩, ⟨6, b.dwLen.toInt32.toInt⟩,
    ⟨(b.dwLen + 6).toInt32.toInt, b.iLeftSize.toInt⟩, ⟨0, b.iLeftSize.toInt⟩]

/-- The loop: the messages handed to `Proc` and the buffer at the `return`; `none` if the
fuel runs out. -/
def handleArrivedMsg : (fuel : ℕ) → Buffer → Option (List Frame × Result Buffer)
  | 0, _ => none
  | fuel + 1, b =>
    match b.arrivedMsg with
    | .returned => some ([], .ok b)
    | .outOfTables => some ([], .error .outOfRange)
    | .dispatched f b' => (handleArrivedMsg fuel b').map fun r => (f :: r.1, r.2)

/-- `recv` puts the bytes behind the used ones. -/
def recv (b : Buffer) (chunk : Bytes) : Buffer where
  mem := b.mem.write b.size.toInt chunk
  size := b.size + Int32.ofNat chunk.length

/-- `RecvCallback` when `recv` returns these bytes; without any, the connection is closed
or in error and the buffer left alone. -/
def recvCallback (fuel : ℕ) (b : Buffer) (chunk : Bytes) : Option (List Frame × Result Buffer) :=
  if chunk = [] then some ([], .ok b) else (b.recv chunk).handleArrivedMsg fuel

/-- One `RecvCallback` after the other, up to the first that leaves the tables. -/
def recvChunks (fuel : ℕ) (b : Buffer) : List Bytes → Option (List Frame × Result Buffer)
  | [] => some ([], .ok b)
  | c :: cs =>
    match b.recvCallback fuel c with
    | none => none
    | some (fs, .error e) => some (fs, .error e)
    | some (fs, .ok b') => (b'.recvChunks fuel cs).map fun r => (fs ++ r.1, r.2)

/-! ## Sending -/

/-- The three writes of a frame behind the used bytes, and the new fill level: an `int`
and the `uint32_t` length added in `uint32_t`. -/
def queue (b : Buffer) (dwMsgID : UInt16) (message : Bytes) : Buffer :=
  let dwLen := UInt32.ofNat message.length
  let mem := b.mem.write b.size.toInt (LittleEndian.bytes 2 dwMsgID.toNat)
  let mem := mem.write (b.size + 2).toInt (LittleEndian.bytes 4 dwLen.toNat)
  let mem := mem.write (b.size + 6).toInt message
  { mem := mem, size := ((b.size + 6).toUInt32 + dwLen).toInt32 }

/-- What is done with the result of the `send` that follows. -/
def sentDirectly (b : Buffer) (iSended : Int32) : Buffer :=
  if 0 < iSended then
    let iLeftSize := b.size - iSended
    let b := { b with size := iLeftSize }
    if 0 < iLeftSize then { b with mem := b.mem.copy 0 iSended.toInt iLeftSize.toInt } else b
  else b

/-- `Mod::HandlePreSendMsg` on the serialized message. -/
def handlePreSendMsg (b : Buffer) (dwID : UInt16) (message : Bytes) (iSended : Int32) : Buffer :=
  (b.queue dwID message).sentDirectly iSended

/-- `Conn::SendHandShakeQ`. -/
def sendHandShakeQ (b : Buffer) (message : Bytes) (iSended : Int32) : Buffer :=
  (b.queue 257 message).sentDirectly iSended

/-- `Conn::SendAppendEntries`, from the built message on. -/
def sendAppendEntries (b : Buffer) (message : Bytes) (iSended : Int32) : Buffer :=
  (b.queue 259 message).sentDirectly iSended

/-- `Conn::SendCallback`. -/
def sendCallback (b : Buffer) (iSended : Int32) : Buffer :=
  if b.size ≤ 0 then b
  else if 0 < iSended then
    let iLeftSize := b.size - iSended
    let b := { b with size := iLeftSize }
    if iLeftSize = 0 then { b with size := 0 }
    else if 0 < iLeftSize then
      { mem := b.mem.copy 0 iSended.toInt iLeftSize.toInt, size := iLeftSize }
    else b
  else b

end Buffer
end NanoRaft
