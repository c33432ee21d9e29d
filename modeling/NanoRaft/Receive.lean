import NanoRaft.Buffers
import NanoRaft.Lib.System

/-!
# Receiving

The input side of a connection. `wire` takes frames off a list of bytes, with lengths that
are natural numbers; one iteration of `HandleArrivedMsg` does the same on the buffer as
long as the header does not announce `2 ^ 31 - 6` bytes or more, where the signed
arithmetic of the completeness test breaks (`arrivedMsg_cases`, `takeOff_of_huge`).

* `chunk_independent`: however the stream is cut by `recv`, the messages sent arrive;
* `receives_inside`: which receives and iterations stay inside the buffer;
* `loop_ends_iff`: on which contents the loop ends and takes off whole frames.
-/

namespace NanoRaft

open LittleEndian

/-! ## Frames on the wire -/

def frameId (bs : Bytes) : UInt16 := UInt16.ofNat (value (bs.take 2))

def frameLen (bs : Bytes) : ℕ := value ((bs.drop 2).take 4)

/-- The first frame, if it is complete and its id is in the tables. -/
def nextFrame (bs : Bytes) : Option (Frame × Bytes) :=
  if 6 ≤ bs.length ∧ frameLen bs + 6 ≤ bs.length ∧ Mod.Registered (frameId bs) then
    some (⟨frameId bs, (bs.drop 6).take (frameLen bs)⟩, bs.drop (frameLen bs + 6))
  else none

theorem frameId_append {bs : Bytes} (later : Bytes) (h : 6 ≤ bs.length) :
    frameId (bs ++ later) = frameId bs := by
  rw [frameId, List.take_append_of_le_length (by omega), frameId]

theorem frameLen_append {bs : Bytes} (later : Bytes) (h : 6 ≤ bs.length) :
    frameLen (bs ++ later) = frameLen bs := by
  rw [frameLen, List.drop_append_of_le_length (by omega),
    List.take_append_of_le_length (by rw [List.length_drop]; omega), frameLen]

theorem frameLen_lt (bs : Bytes) : frameLen bs < 2 ^ 32 := by
  have hlt := value_lt ((bs.drop 2).take 4)
  have hle : ((bs.drop 2).take 4).length ≤ 4 := by
    rw [List.length_take]
    omega
  calc frameLen bs < 256 ^ ((bs.drop 2).take 4).length := hlt
    _ ≤ 256 ^ 4 := Nat.pow_le_pow_right (by omega) hle
    _ = 2 ^ 32 := by norm_num

theorem nextFrame_eq_some {bs rest : Bytes} {f : Frame} (h : nextFrame bs = some (f, rest)) :
    6 ≤ bs.length ∧ frameLen bs + 6 ≤ bs.length ∧ Mod.Registered (frameId bs) ∧
      f = ⟨frameId bs, (bs.drop 6).take (frameLen bs)⟩ ∧ rest = bs.drop (frameLen bs + 6) := by
  rw [nextFrame] at h
  split_ifs at h with hc
  rw [Option.some.injEq, Prod.mk.injEq] at h
  exact ⟨hc.1, hc.2.1, hc.2.2, h.1.symm, h.2.symm⟩

/-- The framing of the input stream. -/
def wire : Framing UInt8 Frame where
  next := nextFrame
  shorter h := by
    obtain ⟨_, hlen, _, _, rfl⟩ := nextFrame_eq_some h
    rw [List.length_drop]
    omega
  stable later h := by
    obtain ⟨h6, hlen, hid, rfl, rfl⟩ := nextFrame_eq_some h
    rw [nextFrame, frameId_append later h6, frameLen_append later h6, List.length_append,
      if_pos ⟨by omega, by omega, hid⟩, List.drop_append_of_le_length h6,
      List.take_append_of_le_length (by rw [List.length_drop]; omega),
      List.drop_append_of_le_length hlen]

theorem wire_next (bs : Bytes) : wire.next bs = nextFrame bs := rfl

theorem length_encode (f : Frame) : f.encode.length = f.payload.length + 6 := by
  rw [Frame.encode, List.length_append, List.length_append, length_bytes, length_bytes]
  omega

theorem frameId_encode (f : Frame) : frameId f.encode = f.id := by
  rw [frameId, Frame.encode, List.append_assoc, List.take_left' (length_bytes ..),
    value_bytes f.id.toNat_lt, UInt16.ofNat_toNat]

theorem frameLen_encode {f : Frame} (h : f.payload.length < 2 ^ 32) :
    frameLen f.encode = f.payload.length := by
  rw [frameLen, Frame.encode, List.append_assoc, List.drop_left' (length_bytes ..),
    List.take_left' (length_bytes ..), value_bytes h]

theorem next_encode {f : Frame} (hid : Mod.Registered f.id) (h : f.payload.length < 2 ^ 32) :
    wire.next f.encode = some (f, []) := by
  have hlen := length_encode f
  have hbytes : f.encode.drop 6 = f.payload := by
    rw [Frame.encode, List.drop_left']
    rw [List.length_append, length_bytes, length_bytes]
  rw [wire_next, nextFrame, frameId_encode, frameLen_encode h, if_pos ⟨by omega, by omega, hid⟩, hbytes,
    List.take_length, ← hlen, List.drop_length]

/-- The ids with a handler. -/
theorem Mod.registered_of_mem {dwID : UInt16} (h : 257 ≤ dwID ∧ dwID ≤ 261) :
    Mod.Registered dwID := by
  have hid : dwID = 257 ∨ dwID = 258 ∨ dwID = 259 ∨ dwID = 260 ∨ dwID = 261 := by
    obtain ⟨hl, hu⟩ := h
    rw [UInt16.le_iff_toNat_le] at hl hu
    simp only [← UInt16.toNat_inj]
    change 257 ≤ dwID.toNat at hl
    change dwID.toNat ≤ 261 at hu
    show dwID.toNat = 257 ∨ dwID.toNat = 258 ∨ dwID.toNat = 259 ∨ dwID.toNat = 260 ∨
      dwID.toNat = 261
    omega
  rcases hid with rfl | rfl | rfl | rfl | rfl <;> decide

/-- A header, if there is one and it has a known id, does not announce `2 ^ 31 - 6` bytes
or more. -/
def HeaderInOrder (known : UInt16 → Prop) (bs : Bytes) : Prop :=
  6 ≤ bs.length → known (frameId bs) → frameLen bs < 2 ^ 31 - 6

instance decidableHeaderInOrder (known : UInt16 → Prop) [DecidablePred known] (bs : Bytes) :
    Decidable (HeaderInOrder known bs) :=
  inferInstanceAs (Decidable (_ → _ → _))

/-! ## One iteration -/

namespace Buffer

variable {b : Buffer}

theorem dwID_eq (h : 6 ≤ b.content.length) : b.dwID = frameId b.content := by
  rw [length_content] at h
  rw [dwID, frameId, content, Memory.take_read b.mem 0 (by omega)]

theorem toNat_dwLen (h : 6 ≤ b.content.length) : b.dwLen.toNat = frameLen b.content := by
  have hlt := frameLen_lt b.content
  rw [length_content] at h
  have hread : ((b.mem.read 0 b.size.toInt.toNat).drop 2).take 4 = b.mem.read 2 4 := by
    rw [Memory.drop_read b.mem 0 (by omega), Memory.take_read _ _ (by omega)]
    rfl
  rw [frameLen, content, hread] at hlt ⊢
  exact UInt.toNat_ofNat32 hlt

/-- The right side of the completeness test, for a length in order. -/
theorem toInt_dwLen_add_six (h : b.dwLen.toNat < 2 ^ 31 - 6) :
    (b.dwLen.toInt32 + 6).toInt = b.dwLen.toNat + 6 := by
  have h6 : (6 : Int32).toInt = 6 := rfl
  have hlen : b.dwLen.toInt32.toInt = b.dwLen.toNat := UInt.toInt_toInt32_of_lt (by omega)
  rw [UInt.toInt_add32 (by omega) (by omega), hlen, h6]

/-- For any other length it is at most 5, by the sign or by the overflow. -/
theorem toInt_dwLen_add_six_le (h : 2 ^ 31 - 6 ≤ b.dwLen.toNat) :
    (b.dwLen.toInt32 + 6).toInt ≤ 5 := by
  have hlt := b.dwLen.toNat_lt
  have h6 : (6 : Int32).toInt = 6 := rfl
  rcases Nat.lt_or_ge b.dwLen.toNat (2 ^ 31) with hs | hs
  · have hlen : b.dwLen.toInt32.toInt = b.dwLen.toNat := UInt.toInt_toInt32_of_lt hs
    rw [Int32.toInt_add, hlen, h6, Int.bmod_def]
    omega
  · have hlen := UInt.toInt_toInt32_of_ge hs
    rw [UInt.toInt_add32 (by omega) (by omega), hlen, h6]
    omega

theorem iLeftSize_eq (b : Buffer) : b.iLeftSize = b.size - (b.dwLen.toInt32 + 6) := rfl

theorem size_lt_six_iff : b.size < 6 ↔ b.size.toInt < 6 := by
  rw [Int32.lt_iff_toInt_lt]
  rfl

/-- A complete message of a length in order is taken off whole. -/
theorem takeOff_of_complete (hb : b.Filled) (hlen : b.dwLen.toNat < 2 ^ 31 - 6)
    (hle : (b.dwLen.toNat : ℤ) + 6 ≤ b.size.toInt) :
    b.takeOff.size.toInt = b.size.toInt - (b.dwLen.toNat + 6) ∧
      b.takeOff.content = b.content.drop (b.dwLen.toNat + 6) := by
  have hadd := toInt_dwLen_add_six hlen
  have hcap : (bufferSize : ℤ) = 1440 := rfl
  have hsize := hb.2
  have hleft : b.iLeftSize.toInt = b.size.toInt - (b.dwLen.toNat + 6) := by
    rw [iLeftSize_eq, UInt.toInt_sub32 (by omega) (by omega), hadd]
  refine ⟨hleft, ?_⟩
  have hn : (b.iLeftSize.toInt.toNat : ℤ) = b.iLeftSize.toInt := by omega
  have hoff : (b.dwLen + 6).toInt32.toInt = b.dwLen.toNat + 6 := hadd
  have hread : b.takeOff.content = b.mem.read (b.dwLen.toNat + 6) b.iLeftSize.toInt.toNat := by
    show (b.mem.copy 0 (b.dwLen + 6).toInt32.toInt b.iLeftSize.toInt).read 0
      b.iLeftSize.toInt.toNat = _
    rw [← hn, hoff, Int.toNat_natCast, Memory.read_copy]
  have hrest : b.iLeftSize.toInt.toNat = b.size.toInt.toNat - (b.dwLen.toNat + 6) := by omega
  have hoff' : (0 : ℤ) + ((b.dwLen.toNat + 6 : ℕ) : ℤ) = b.dwLen.toNat + 6 := by
    rw [zero_add, Nat.cast_add, Nat.cast_ofNat]
  rw [hread, hrest, content, Memory.drop_read _ _ (by omega), hoff']

/-- **One iteration on a header in order.** Either there is no frame to take off, and the
loop returns or leaves the tables, or the first frame is handed to `Proc` and the rest
moved to the front. -/
theorem arrivedMsg_cases (hb : b.Filled) (hin : HeaderInOrder Mod.Registered b.content) :
    (wire.next b.content = none ∧ (b.arrivedMsg = .returned ∨
      6 ≤ b.content.length ∧ ¬ Mod.Registered (frameId b.content) ∧
        b.arrivedMsg = .outOfTables)) ∨
    ∃ f, wire.next b.content = some (f, b.takeOff.content) ∧
      b.arrivedMsg = .dispatched f b.takeOff ∧ b.takeOff.Filled ∧
      b.takeOff.size.toInt = b.size.toInt - (b.dwLen.toNat + 6) := by
  have hlength := hb.length
  simp only [wire_next, nextFrame, arrivedMsg]
  by_cases h6 : b.size < 6
  · -- no header yet
    have hlt := size_lt_six_iff.mp h6
    rw [if_neg (by omega), if_pos h6]
    exact Or.inl ⟨rfl, Or.inl rfl⟩
  have hge : 6 ≤ b.content.length := by
    have hlt := mt size_lt_six_iff.mpr h6
    omega
  rw [if_neg h6, dwID_eq hge]
  by_cases hid : Mod.Registered (frameId b.content)
  · have hlen : b.dwLen.toNat < 2 ^ 31 - 6 := by
      rw [toNat_dwLen hge]
      exact hin hge hid
    have hadd := toInt_dwLen_add_six hlen
    by_cases hlt : b.size < b.dwLen.toInt32 + 6
    · -- an incomplete message
      have hlt' := Int32.lt_iff_toInt_lt.mp hlt
      rw [← toNat_dwLen hge, if_neg (by omega), if_pos hlt]
      exact Or.inl ⟨rfl, Or.inl rfl⟩
    · have hle : (b.dwLen.toNat : ℤ) + 6 ≤ b.size.toInt := by
        have hlt' := mt Int32.lt_iff_toInt_lt.mpr hlt
        omega
      obtain ⟨hsize, hrest⟩ := takeOff_of_complete hb hlen hle
      have hpayload : b.payload = (b.content.drop 6).take b.dwLen.toNat := by
        have hn : b.dwLen.toInt32.toInt.toNat = b.dwLen.toNat := by
          rw [UInt.toInt_toInt32_of_lt (by omega), Int.toNat_natCast]
        rw [length_content] at hge
        rw [payload, hn, content, Memory.drop_read _ _ hge, Memory.take_read _ _ (by omega)]
        rfl
      rw [← toNat_dwLen hge, if_pos ⟨hge, by omega, hid⟩, if_neg hlt, if_pos hid, hrest, hpayload]
      have hfilled := hb.2
      exact Or.inr ⟨_, rfl, rfl, ⟨by omega, by omega⟩, hsize⟩
  · rw [if_neg fun hc => hid hc.2.2, if_neg hid]
    by_cases hlt : b.size < b.dwLen.toInt32 + 6
    · rw [if_pos hlt]
      exact Or.inl ⟨rfl, Or.inl rfl⟩
    · rw [if_neg hlt]
      exact Or.inl ⟨rfl, Or.inr ⟨hge, hid, rfl⟩⟩

/-- A header that is not in order passes the completeness test whatever is there. -/
theorem arrivedMsg_of_huge (hb : b.Filled) (h6 : 6 ≤ b.content.length)
    (hid : Mod.Registered (frameId b.content)) (hlen : 2 ^ 31 - 6 ≤ frameLen b.content) :
    b.arrivedMsg = .dispatched ⟨b.dwID, b.payload⟩ b.takeOff := by
  have hlength := hb.length
  rw [← toNat_dwLen h6] at hlen
  have hadd := toInt_dwLen_add_six_le hlen
  have hlt : ¬ b.size < b.dwLen.toInt32 + 6 := by
    rw [Int32.lt_iff_toInt_lt]
    omega
  have hsix : ¬ b.size < 6 := by
    rw [size_lt_six_iff]
    omega
  rw [arrivedMsg, if_neg hsix, if_neg hlt, if_pos (by rw [dwID_eq h6]; exact hid)]

/-! ## The loop -/

/-- The header of a complete frame is in order. -/
theorem headerInOrder_of_some {known : UInt16 → Prop} {r : Frame × Bytes} (hb : b.Filled)
    (h : wire.next b.content = some r) : HeaderInOrder known b.content := by
  intro _ _
  obtain ⟨_, hle, _⟩ := nextFrame_eq_some h
  have hsize := hb.2
  have hlength := hb.length
  have hcap : (bufferSize : ℤ) = 1440 := rfl
  omega

theorem handleArrivedMsg_of_dispatched {f : Frame} {b' : Buffer} {fuel : ℕ}
    (h : b.arrivedMsg = .dispatched f b') :
    b.handleArrivedMsg (fuel + 1) = (b'.handleArrivedMsg fuel).map fun r => (f :: r.1, r.2) := by
  rw [handleArrivedMsg, h]

/-- The buffers the loop comes to. -/
def Iterates : Buffer → Buffer → Prop :=
  Relation.ReflTransGen fun b b' => ∃ f, b.arrivedMsg = .dispatched f b'

/-- The loop takes off all complete frames, and is then at the incomplete end. -/
theorem exists_iterates_split (hb : b.Filled) :
    ∃ b', b.Iterates b' ∧ b'.Filled ∧ b'.content = (wire.split b.content).2 ∧
      ∀ fuel, b.handleArrivedMsg ((wire.split b.content).1.length + fuel) =
        (b'.handleArrivedMsg fuel).map fun r => ((wire.split b.content).1 ++ r.1, r.2) := by
  -- every frame taken off makes the content shorter
  induction hn : b.content.length using Nat.strong_induction_on generalizing b with
  | _ n ih =>
    cases hnext : wire.next b.content with
    | none =>
      rw [Framing.split_of_none hnext]
      refine ⟨b, .refl, hb, rfl, fun fuel => ?_⟩
      rw [List.length_nil, Nat.zero_add]
      cases b.handleArrivedMsg fuel <;> rfl
    | some r =>
      rcases arrivedMsg_cases hb (headerInOrder_of_some hb hnext) with ⟨hnone, _⟩ |
        ⟨f, hsome, harr, hfilled, _⟩
      · rw [hnext] at hnone
        exact absurd hnone (Option.some_ne_none r)
      · have hshort : b.takeOff.content.length < n := hn ▸ wire.shorter hsome
        obtain ⟨b', hit, hfilled', hrest, hrun⟩ := ih _ hshort hfilled rfl
        rw [Framing.split_of_some hsome]
        refine ⟨b', Relation.ReflTransGen.head ⟨f, harr⟩ hit, hfilled', hrest, fun fuel => ?_⟩
        rw [List.length_cons, Nat.add_right_comm, handleArrivedMsg_of_dispatched harr, hrun,
          Option.map_map]
        rfl

/-- **The loop on a content whose incomplete end is in order.** It hands over the complete
frames and returns, or leaves the tables at the end. -/
theorem handleArrivedMsg_eq (hb : b.Filled) {fuel : ℕ} (hfuel : b.content.length < fuel)
    (hin : HeaderInOrder Mod.Registered (wire.split b.content).2) :
    ∃ b', b'.Filled ∧ b'.content = (wire.split b.content).2 ∧
      (b.handleArrivedMsg fuel = some ((wire.split b.content).1, .ok b') ∨
      6 ≤ b'.content.length ∧ ¬ Mod.Registered (frameId b'.content) ∧
        b.handleArrivedMsg fuel = some ((wire.split b.content).1, .error .outOfRange)) := by
  obtain ⟨b', _, hfilled, hrest, hrun⟩ := exists_iterates_split hb
  refine ⟨b', hfilled, hrest, ?_⟩
  -- the fuel is enough for the frames and for the last iteration
  obtain ⟨k, hk⟩ : ∃ k, fuel = (wire.split b.content).1.length + (k + 1) := by
    have hle := Framing.length_split_le (F := wire) b.content
    exact ⟨fuel - (wire.split b.content).1.length - 1, by omega⟩
  rw [← hrest] at hin
  rw [hk, hrun]
  rcases arrivedMsg_cases hfilled hin with ⟨_, harr | ⟨h6, hid, harr⟩⟩ | ⟨f, hsome, _⟩
  · left
    rw [handleArrivedMsg, harr, Option.map_some, List.append_nil]
  · right
    rw [handleArrivedMsg, harr, Option.map_some, List.append_nil]
    exact ⟨h6, hid, rfl⟩
  · rw [hrest, Framing.next_split] at hsome
    exact absurd hsome (Option.some_ne_none _).symm

/-! ## Chunks -/

theorem recv_filled (hb : b.Filled) {chunk : Bytes}
    (hfits : b.content.length + chunk.length ≤ bufferSize) :
    (b.recv chunk).Filled ∧ (b.recv chunk).content = b.content ++ chunk := by
  have hlength := hb.length
  have hcap : bufferSize = 1440 := rfl
  have hcount : (Int32.ofNat chunk.length).toInt = chunk.length :=
    Int32.toInt_ofNat_of_lt (by omega)
  have hsize : (b.recv chunk).size.toInt = b.size.toInt + chunk.length := by
    show (b.size + Int32.ofNat chunk.length).toInt = _
    rw [UInt.toInt_add32 (by omega) (by omega), hcount]
  refine ⟨⟨by omega, by omega⟩, ?_⟩
  have hn : (b.recv chunk).size.toInt.toNat = b.size.toInt.toNat + chunk.length := by omega
  rw [content, hn, content]
  show (b.mem.write b.size.toInt chunk).read 0 _ = _
  exact Memory.read_write_append b.mem chunk (by omega)

/-- The incomplete end, if it has a header, has one the loop goes on waiting at. -/
def AwaitsMore (bs : Bytes) : Prop :=
  6 ≤ bs.length → Mod.Registered (frameId bs) ∧ frameLen bs < 2 ^ 31 - 6

/-- A beginning of a frame of known id and bounded length is waited at. -/
theorem awaitsMore_of_isPrefix {f : Frame} {bs : Bytes} (hpre : bs <+: f.encode)
    (hid : Mod.Registered f.id) (hlen : f.encode.length ≤ bufferSize) : AwaitsMore bs := by
  obtain ⟨later, hlater⟩ := hpre
  have hcap : bufferSize = 1440 := rfl
  rw [length_encode] at hlen
  intro h6
  rw [← frameId_append later h6, ← frameLen_append later h6, hlater, frameId_encode,
    frameLen_encode (by omega)]
  exact ⟨hid, by omega⟩

/-- One `RecvCallback` takes the complete frames off what was kept and the chunk. -/
theorem recvCallback_eq_split {fuel : ℕ} {chunk : Bytes} (hb : b.Filled)
    (hfuel : bufferSize < fuel) (hnone : wire.next b.content = none)
    (hfits : b.content.length + chunk.length ≤ bufferSize)
    (hawait : AwaitsMore (wire.split (b.content ++ chunk)).2) :
    ∃ b', b.recvCallback fuel chunk = some ((wire.split (b.content ++ chunk)).1, .ok b') ∧
      b'.Filled ∧ b'.content = (wire.split (b.content ++ chunk)).2 := by
  rw [recvCallback]
  by_cases hc : chunk = []
  · rw [if_pos hc, hc, List.append_nil, Framing.split_of_none hnone]
    exact ⟨b, rfl, hb, rfl⟩
  · rw [if_neg hc]
    obtain ⟨hfilled, hcontent⟩ := recv_filled hb hfits
    have hlt : (b.recv chunk).content.length < fuel := by
      rw [hcontent, List.length_append]
      omega
    rw [← hcontent] at hawait ⊢
    obtain ⟨b', hfilled', hrest, hrun | ⟨h6, hid, _⟩⟩ :=
      handleArrivedMsg_eq hfilled hlt fun h6 _ => (hawait h6).2
    · exact ⟨b', hrun, hfilled', hrest⟩
    · rw [hrest] at h6 hid
      exact absurd (hawait h6).1 hid

/-- **The receiving code is the chunked splitting of the stream**, as long as everything
fits into the buffer. -/
theorem recvChunks_eq_consume {fuel : ℕ} {cs : List Bytes} (hb : b.Filled)
    (hfuel : bufferSize < fuel) (hnone : wire.next b.content = none)
    (hfits : ∀ k c, cs[k]? = some c →
      (wire.consume b.content (cs.take k)).2.length + c.length ≤ bufferSize)
    (hawait : ∀ k, AwaitsMore (wire.consume b.content (cs.take k)).2) :
    ∃ b', b.recvChunks fuel cs = some ((wire.consume b.content cs).1, .ok b') ∧
      b'.content = (wire.consume b.content cs).2 := by
  induction cs generalizing b with
  | nil => exact ⟨b, rfl, rfl⟩
  | cons c cs ih =>
    obtain ⟨b', hrun, hfilled, hrest⟩ :=
      recvCallback_eq_split hb hfuel hnone (hfits 0 c rfl) (hawait 1)
    have hnext : wire.next b'.content = none := by
      rw [hrest]
      exact Framing.next_split _
    -- what the remaining chunks meet is what the whole list meets one chunk later
    obtain ⟨b'', hruns, hend⟩ := ih hfilled hnext
      (fun k c' hc' => by rw [hrest]; exact hfits (k + 1) c' hc')
      (fun k => by rw [hrest]; exact hawait (k + 1))
    rw [hrest] at hruns hend
    refine ⟨b'', ?_, hend⟩
    rw [recvChunks, hrun]
    show (b'.recvChunks fuel cs).map _ = _
    rw [hruns]
    rfl

end Buffer

open Buffer Framing in
/-- **Framing is independent of chunking.** The chunks are any cut of the encoded messages
in which what is kept and the next chunk never exceed the buffer. After every number of
chunks the messages handed to `Proc` are the ones received whole, in order, and the buffer
holds the incomplete end; after all of them that is every message and nothing. -/
theorem chunk_independent {b : Buffer} {fuel : ℕ} {fs : List Frame} {chunks : List Bytes}
    (hb : b.size = 0) (hfuel : bufferSize < fuel) (hid : ∀ f ∈ fs, 257 ≤ f.id ∧ f.id ≤ 261)
    (hall : chunks.flatten = fs.flatMap Frame.encode)
    (hfits : Fits Frame.encode bufferSize fs chunks) :
    (∀ k, ∃ b', b.recvChunks fuel (chunks.take k) =
        some ((parts Frame.encode fs (chunks.take k).flatten).1, .ok b') ∧
      b'.content = (parts Frame.encode fs (chunks.take k).flatten).2) ∧
    ∃ b', b.recvChunks fuel chunks = some (fs, .ok b') ∧ b'.content = [] := by
  have hreg : ∀ f ∈ fs, Mod.Registered f.id := fun f hf => Mod.registered_of_mem (hid f hf)
  have hlen : ∀ f ∈ fs, f.encode.length ≤ bufferSize := fun f hf => hfits.length_le hall hf
  have henc : ∀ f ∈ fs, wire.next f.encode = some (f, []) := by
    intro f hf
    have hle := hlen f hf
    have hcap : bufferSize = 1440 := rfl
    rw [length_encode] at hle
    exact next_encode (hreg f hf) (by omega)
  have hcut : ∀ k, (chunks.take k).flatten ++ (chunks.drop k).flatten = fs.flatMap Frame.encode := by
    intro k
    rw [← List.flatten_append, List.take_append_drop, hall]
  -- the chunked splitting of the first chunks is the messages received whole
  have hconsume : ∀ k, wire.consume [] (chunks.take k) =
      parts Frame.encode fs (chunks.take k).flatten := by
    intro k
    rw [consume_eq_split _ rfl, List.nil_append, split_eq_parts henc rfl (hcut k)]
  have hempty : b.content = [] := by
    rw [content, hb]
    rfl
  have hfilled : b.Filled := by
    rw [Filled, hb]
    exact ⟨by decide, by decide⟩
  have hparts : ∀ k, ∃ b', b.recvChunks fuel (chunks.take k) =
      some ((parts Frame.encode fs (chunks.take k).flatten).1, .ok b') ∧
      b'.content = (parts Frame.encode fs (chunks.take k).flatten).2 := by
    intro k
    rw [← hconsume, ← hempty]
    apply recvChunks_eq_consume hfilled hfuel
    · rw [hempty]
      rfl
    · intro j c hc
      rw [List.getElem?_take] at hc
      split_ifs at hc with hj
      rw [List.take_take, min_eq_left (by omega), hempty, hconsume]
      exact hfits j c hc
    · intro j
      rw [List.take_take, hempty, hconsume]
      rcases parts_snd (hcut (min j k)) with hnil | ⟨f, hf, hpre⟩
      · rw [hnil]
        intro h6
        exact absurd h6 (by decide)
      · exact awaitsMore_of_isPrefix hpre (hreg f hf) (hlen f hf)
  refine ⟨hparts, ?_⟩
  have hwhole := hparts chunks.length
  rw [List.take_length, hall, parts_flatMap] at hwhole
  exact hwhole

/-- Two messages, the first without a payload, in chunks that cut the second header. -/
theorem chunk_independent_two :
    ∃ b', (Buffer.mk (fun _ => 0) 0).recvChunks 1441 [[2, 1, 0, 0, 0, 0, 4], [1, 2, 0], [0, 0, 8, 1]]
        = some ([⟨258, []⟩, ⟨260, [8, 1]⟩], .ok b') ∧ b'.content = [] := by
  refine (chunk_independent rfl (by decide) (by decide) (by decide) ?_).2
  intro k c hc
  rcases k with _ | _ | _ | k <;> cases hc <;> decide

/-! ## The end of the loop -/

namespace Buffer

/-- The loop comes to an end, and every iteration that dispatches a message takes its header
and payload, `dwLen + 6` bytes of those there, off the buffer. -/
def LoopEnds (b : Buffer) : Prop :=
  (∃ fuel r, b.handleArrivedMsg fuel = some r) ∧
    ∀ b' f b'', b.Iterates b' → b'.arrivedMsg = .dispatched f b'' →
      b''.size.toInt = b'.size.toInt - (b'.dwLen.toNat + 6) ∧ 0 ≤ b''.size.toInt

variable {b : Buffer}

/-- The header at the front belongs to a complete frame or is the one at the end. -/
theorem headerInOrder_of_split (hb : b.Filled)
    (hin : HeaderInOrder Mod.Registered (wire.split b.content).2) :
    HeaderInOrder Mod.Registered b.content := by
  cases hnext : wire.next b.content with
  | none =>
    rw [Framing.split_of_none hnext] at hin
    exact hin
  | some r => exact headerInOrder_of_some hb hnext

/-- What an iteration that dispatches a message does, if the header is in order. -/
theorem arrivedMsg_dispatched {f : Frame} {b' : Buffer} (hb : b.Filled)
    (hin : HeaderInOrder Mod.Registered b.content) (harr : b.arrivedMsg = .dispatched f b') :
    wire.next b.content = some (f, b'.content) ∧ b'.Filled ∧
      b'.size.toInt = b.size.toInt - (b.dwLen.toNat + 6) := by
  rcases arrivedMsg_cases hb hin with ⟨_, hret | ⟨_, _, hout⟩⟩ | ⟨g, hsome, hdis, hrest⟩
  · rw [hret] at harr
    exact absurd harr (by simp)
  · rw [hout] at harr
    exact absurd harr (by simp)
  · rw [hdis, Arrived.dispatched.injEq] at harr
    obtain ⟨rfl, rfl⟩ := harr
    exact ⟨hsome, hrest⟩

/-- As long as the header at the end is in order, so is every header the loop comes to. -/
theorem iterates_inOrder {b' : Buffer} (hb : b.Filled)
    (hin : HeaderInOrder Mod.Registered (wire.split b.content).2) (h : b.Iterates b') :
    b'.Filled ∧ HeaderInOrder Mod.Registered (wire.split b'.content).2 := by
  induction h with
  | refl => exact ⟨hb, hin⟩
  | tail _ hstep ih =>
    obtain ⟨f, harr⟩ := hstep
    obtain ⟨hsome, hfilled, _⟩ :=
      arrivedMsg_dispatched ih.1 (headerInOrder_of_split ih.1 ih.2) harr
    -- what is left has the same incomplete end
    have hsame := ih.2
    rw [Framing.split_of_some hsome] at hsame
    exact ⟨hfilled, hsame⟩

/-- **When the loop ends.** The complete frames at the front of the content do not matter:
the header after them decides, by announcing less than `2 ^ 31 - 6` bytes. An id outside the
tables, 262 included, ends the loop at once: it is looked up out of range. -/
theorem loop_ends_iff (hb : b.Filled) :
    b.LoopEnds ↔ HeaderInOrder Mod.Registered (wire.split b.content).2 := by
  constructor
  · intro hends h6 hid
    by_contra hlen
    obtain ⟨b', hit, hfilled, hrest, _⟩ := exists_iterates_split hb
    rw [← hrest] at h6 hid hlen
    -- the loop comes to that header and passes the completeness test there
    obtain ⟨hsize, hpos⟩ := hends.2 b' _ _ hit (arrivedMsg_of_huge hfilled h6 hid (by omega))
    have hcap : (bufferSize : ℤ) = 1440 := rfl
    have hle := hfilled.2
    rw [toNat_dwLen h6] at hsize
    omega
  · intro hin
    constructor
    · obtain ⟨b', _, _, hrun | ⟨_, _, hrun⟩⟩ := handleArrivedMsg_eq hb (Nat.lt_succ_self _) hin
      · exact ⟨_, _, hrun⟩
      · exact ⟨_, _, hrun⟩
    · intro b' f b'' hit harr
      obtain ⟨hfilled, hin'⟩ := iterates_inOrder hb hin hit
      obtain ⟨_, hpos, hsize⟩ :=
        arrivedMsg_dispatched hfilled (headerInOrder_of_split hfilled hin') harr
      exact ⟨hsize, hpos.1⟩

/-- A complete message and the beginning of the next one. -/
theorem loop_ends_after_one :
    (Buffer.mk (Memory.write (fun _ => 0) 0 [2, 1, 0, 0, 0, 0, 4, 1, 2, 0, 0, 0, 8]) 13).LoopEnds := by
  refine (loop_ends_iff ⟨by decide, by decide⟩).mpr ?_
  have hone : wire.next [2, 1, 0, 0, 0, 0, 4, 1, 2, 0, 0, 0, 8] =
      some (⟨258, []⟩, [4, 1, 2, 0, 0, 0, 8]) := rfl
  show HeaderInOrder _ (wire.split [2, 1, 0, 0, 0, 0, 4, 1, 2, 0, 0, 0, 8]).2
  rw [Framing.split_of_some hone, Framing.split_of_none rfl]
  intro _ _
  decide

/-- The header `01 01 FA FF FF FF` announces `2 ^ 32 - 6` bytes. -/
def endless : Buffer := ⟨Memory.write (fun _ => 0) 0 [1, 1, 0xFA, 0xFF, 0xFF, 0xFF], 6⟩

/-- Taking the message off `endless` leaves it as it is. -/
theorem arrivedMsg_endless : endless.arrivedMsg = .dispatched ⟨257, []⟩ endless := by
  have hsame : endless.takeOff = endless := by
    show Buffer.mk (endless.mem.copy 0 0 6) 6 = ⟨endless.mem, 6⟩
    congr 1
    funext i
    simp only [Memory.copy, sub_zero, zero_add, ite_self]
  have harr : endless.arrivedMsg = .dispatched ⟨257, []⟩ endless.takeOff := rfl
  rw [harr, hsame]

/-- The loop goes on for ever. -/
theorem loop_endless :
    endless.Filled ∧ (∀ fuel, endless.handleArrivedMsg fuel = none) ∧ ¬ endless.LoopEnds := by
  have hnone : ∀ fuel, endless.handleArrivedMsg fuel = none := by
    intro fuel
    induction fuel with
    | zero => rfl
    | succ fuel ih => rw [handleArrivedMsg_of_dispatched arrivedMsg_endless, ih, Option.map_none]
  refine ⟨⟨by decide, by decide⟩, hnone, fun hends => ?_⟩
  obtain ⟨fuel, r, hr⟩ := hends.1
  rw [hnone] at hr
  exact absurd hr.symm (Option.some_ne_none r)

end Buffer

/-! ## Staying inside the buffer -/

/-- Where `RecvCallback` is. -/
inductive Phase where
  /-- Waiting for data. -/
  | idle
  /-- In the loop of `HandleArrivedMsg`. -/
  | looping
  /-- An index left the message or handler tables. -/
  | outOfTables
  deriving DecidableEq, Repr

/-- The input side of a connection, with every access made to the buffer so far. -/
structure Receiver where
  buffer : Buffer
  phase : Phase
  accesses : List Access

inductive RecvEvent where
  /-- `recv`, asked for 1440 bytes, returns these. -/
  | recv (chunk : Bytes)
  /-- One iteration of the loop. -/
  | iterate

namespace Receiver

/-- `recv` writes behind the used bytes; an iteration ends the callback, takes a message
off or leaves the tables. -/
def next (s : Receiver) : RecvEvent → Option Receiver
  | .recv chunk =>
    if s.phase = .idle ∧ 1 ≤ chunk.length ∧ chunk.length ≤ 1440 then
      some {
        buffer := s.buffer.recv chunk
        phase := .looping
        accesses := s.accesses ++ [⟨s.buffer.size.toInt, chunk.length⟩] }
    else none
  | .iterate =>
    if s.phase = .looping then
      let accesses := s.accesses ++ s.buffer.arrivedAccesses
      match s.buffer.arrivedMsg with
      | .returned => some { s with phase := .idle, accesses := accesses }
      | .outOfTables => some { s with phase := .outOfTables, accesses := accesses }
      | .dispatched _ b => some { s with buffer := b, accesses := accesses }
    else none

/-- The receive history of a fresh `Conn`. -/
def receiving : System Receiver RecvEvent where
  init s := s.buffer.size = 0 ∧ s.phase = .idle ∧ s.accesses = []
  next := next

/-- The received bytes fit behind the used ones, and the length in a header whose id has a
message type is below `2 ^ 31 - 6`. -/
def InBounds (s : Receiver) : RecvEvent → Prop
  | .recv chunk => s.buffer.content.length + chunk.length ≤ bufferSize
  | .iterate => HeaderInOrder Mod.HasMessage s.buffer.content

instance decidableInBounds (s : Receiver) : (e : RecvEvent) → Decidable (s.InBounds e)
  | .recv _ => inferInstanceAs (Decidable (_ ≤ _))
  | .iterate => decidableHeaderInOrder Mod.HasMessage s.buffer.content

variable {s s' : Receiver}

/-- A header in order: the payload of a complete message, and both sides of the copy, end at
the used bytes. -/
theorem arrivedAccesses_inside {b : Buffer} (hb : b.Filled) (hge : 6 ≤ b.content.length)
    (hid : Mod.HasMessage (frameId b.content)) (hsmall : b.dwLen.toNat < 2 ^ 31 - 6) :
    ∀ a ∈ b.arrivedAccesses, a.Inside := by
  intro a ha
  have hlength := hb.length
  have h6 : ¬ b.size < 6 := fun h6 => by
    have hlt := Buffer.size_lt_six_iff.mp h6
    omega
  have hadd := Buffer.toInt_dwLen_add_six hsmall
  rw [Buffer.arrivedAccesses, if_neg h6, Buffer.dwID_eq hge] at ha
  by_cases hlt : b.size < b.dwLen.toInt32 + 6
  · rw [if_pos (Or.inl hlt)] at ha
    simp only [List.mem_cons, List.not_mem_nil, or_false] at ha
    rcases ha with rfl | rfl <;> decide
  · have hle : (b.dwLen.toNat : ℤ) + 6 ≤ b.size.toInt := by
      have hlt' := mt Int32.lt_iff_toInt_lt.mpr hlt
      omega
    have hleft : b.iLeftSize.toInt = b.size.toInt - (b.dwLen.toNat + 6) :=
      (Buffer.takeOff_of_complete hb hsmall hle).1
    have hpay : b.dwLen.toInt32.toInt = b.dwLen.toNat := UInt.toInt_toInt32_of_lt (by omega)
    have hoff : (b.dwLen + 6).toInt32.toInt = b.dwLen.toNat + 6 := hadd
    have hfull := hb.2
    have hcap : (bufferSize : ℤ) = 1440 := rfl
    rw [if_neg (not_or.mpr ⟨hlt, not_not.mpr hid⟩), hleft, hpay, hoff] at ha
    simp only [List.mem_cons, List.not_mem_nil, or_false] at ha
    rcases ha with rfl | rfl | rfl | rfl | rfl <;> simp only [Access.Inside] <;> omega

/-- A length from `2 ^ 31 - 6` on: the parser is given a negative size or one beyond the end. -/
theorem arrivedAccesses_outside {b : Buffer} (hb : b.Filled) (hge : 6 ≤ b.content.length)
    (hid : Mod.HasMessage (frameId b.content)) (hlarge : 2 ^ 31 - 6 ≤ b.dwLen.toNat) :
    ¬ ∀ a ∈ b.arrivedAccesses, a.Inside := by
  intro hall
  have hlength := hb.length
  have hfull := hb.2
  have hcap : (bufferSize : ℤ) = 1440 := rfl
  have h6 : ¬ b.size < 6 := fun h6 => by
    have hlt := Buffer.size_lt_six_iff.mp h6
    omega
  have hadd := Buffer.toInt_dwLen_add_six_le (b := b) hlarge
  have hlt : ¬ b.size < b.dwLen.toInt32 + 6 := by
    rw [Int32.lt_iff_toInt_lt]
    omega
  have hpay : b.dwLen.toInt32.toInt < 0 ∨ 2 ^ 31 - 6 ≤ b.dwLen.toInt32.toInt := by
    have hword := b.dwLen.toNat_lt
    rcases Nat.lt_or_ge b.dwLen.toNat (2 ^ 31) with hs | hs
    · have hpos := UInt.toInt_toInt32_of_lt hs
      omega
    · have hneg := UInt.toInt_toInt32_of_ge hs
      omega
  rw [Buffer.arrivedAccesses, if_neg h6, Buffer.dwID_eq hge,
    if_neg (not_or.mpr ⟨hlt, not_not.mpr hid⟩)] at hall
  have hread := hall ⟨6, b.dwLen.toInt32.toInt⟩ (by simp)
  rw [Access.Inside] at hread
  simp only at hread
  omega

/-- Which iterations stay inside. -/
theorem arrivedAccesses_inside_iff {b : Buffer} (hb : b.Filled) :
    (∀ a ∈ b.arrivedAccesses, a.Inside) ↔ HeaderInOrder Mod.HasMessage b.content := by
  have hlength := hb.length
  by_cases h6 : b.size < 6
  · -- nothing is read
    have hlt := Buffer.size_lt_six_iff.mp h6
    rw [Buffer.arrivedAccesses, if_pos h6]
    exact ⟨fun _ hge => by omega, fun _ a ha => absurd ha List.not_mem_nil⟩
  have hge : 6 ≤ b.content.length := by
    have hlt := mt Buffer.size_lt_six_iff.mpr h6
    omega
  have hlen := Buffer.toNat_dwLen hge
  by_cases hid : Mod.HasMessage (frameId b.content)
  · by_cases hsmall : b.dwLen.toNat < 2 ^ 31 - 6
    · exact iff_of_true (arrivedAccesses_inside hb hge hid hsmall) fun _ _ => by omega
    · refine iff_of_false (arrivedAccesses_outside hb hge hid (by omega)) fun hin => ?_
      have hlt := hin hge hid
      omega
  · -- only the header is read
    have hin : HeaderInOrder Mod.HasMessage b.content := fun _ h => absurd h hid
    rw [Buffer.arrivedAccesses, if_neg h6, Buffer.dwID_eq hge]
    simp only [hin, iff_true, hid, not_false_eq_true, or_true, if_true]
    intro a ha
    simp only [List.mem_cons, List.not_mem_nil, or_false] at ha
    rcases ha with rfl | rfl <;> decide

/-- The accesses an event makes. -/
def accessesOf (s : Receiver) : RecvEvent → List Access
  | .recv chunk => [⟨s.buffer.size.toInt, chunk.length⟩]
  | .iterate => s.buffer.arrivedAccesses

/-- What one event does to the access history and, within the bounds, to the buffer. -/
theorem next_eq_some {e : RecvEvent} (h : s.next e = some s') :
    s'.accesses = s.accesses ++ s.accessesOf e ∧
      (s.buffer.Filled → s.InBounds e → s'.buffer.Filled) := by
  cases e with
  | recv chunk =>
    simp only [next, Option.ite_none_right_eq_some, Option.some.injEq] at h
    obtain ⟨_, rfl⟩ := h
    exact ⟨rfl, fun hb hfits => (Buffer.recv_filled hb hfits).1⟩
  | iterate =>
    simp only [next, Option.ite_none_right_eq_some] at h
    obtain ⟨_, h⟩ := h
    rcases harr : s.buffer.arrivedMsg with _ | _ | ⟨f, b⟩ <;> rw [harr] at h
    · obtain rfl := Option.some.inj h
      exact ⟨rfl, fun hb _ => hb⟩
    · obtain rfl := Option.some.inj h
      exact ⟨rfl, fun hb _ => hb⟩
    · obtain rfl := Option.some.inj h
      -- a registered id has a message type
      refine ⟨rfl, fun hb hin => ?_⟩
      exact (Buffer.arrivedMsg_dispatched hb (fun h6 hid => hin h6 hid.1) harr).2.1

/-- Which events make only accesses inside the buffer. -/
theorem accessesOf_inside_iff {e : RecvEvent} (hb : s.buffer.Filled) (h : s.next e = some s') :
    (∀ a ∈ s.accessesOf e, a.Inside) ↔ s.InBounds e := by
  cases e with
  | recv chunk =>
    simp only [next, Option.ite_none_right_eq_some] at h
    have hlength := hb.length
    have hpos := hb.1
    obtain ⟨⟨_, hone, _⟩, _⟩ := h
    simp only [accessesOf, InBounds, List.forall_mem_singleton, Access.Inside]
    omega
  | iterate => exact arrivedAccesses_inside_iff hb

/-- **Receiving stays inside the buffer** exactly as long as every `recv` and every iteration
is in bounds. -/
theorem receives_inside (h : receiving.Reachable InBounds s) :
    (∀ a ∈ s.accesses, a.Inside) ∧
      ∀ e s', s.next e = some s' → ((∀ a ∈ s'.accesses, a.Inside) ↔ s.InBounds e) := by
  have hinv : s.buffer.Filled ∧ ∀ a ∈ s.accesses, a.Inside := by
    apply h.invariant (I := fun s => s.buffer.Filled ∧ ∀ a ∈ s.accesses, a.Inside)
    · rintro s ⟨hsize, _, hnil⟩
      rw [Buffer.Filled, hsize, hnil]
      exact ⟨⟨by decide, by decide⟩, fun a ha => absurd ha List.not_mem_nil⟩
    · intro s e s' _ ⟨hb, hall⟩ hin hn
      obtain ⟨haccesses, hfilled⟩ := next_eq_some hn
      refine ⟨hfilled hb hin, fun a ha => ?_⟩
      rw [haccesses, List.mem_append] at ha
      rcases ha with ha | ha
      · exact hall a ha
      · exact (accessesOf_inside_iff hb hn).mpr hin a ha
  refine ⟨hinv.2, fun e s' hn => ?_⟩
  rw [← accessesOf_inside_iff hinv.1 hn, (next_eq_some hn).1]
  constructor
  · exact fun hall a ha => hall a (List.mem_append_right _ ha)
  · intro hall a ha
    rcases List.mem_append.mp ha with ha | ha
    · exact hinv.2 a ha
    · exact hall a ha

/-- A connection that has received nothing yet. -/
def empty : Receiver := ⟨⟨fun _ => 0, 0⟩, .idle, []⟩

theorem reachable_empty {C : Receiver → RecvEvent → Prop} : receiving.Reachable C empty :=
  System.reachable_init ⟨rfl, rfl, rfl⟩

/-- A message in two chunks, with the iteration after each and the one after the message. -/
theorem receives_inside_cut :
    ∃ s : Receiver, s.accesses.length = 7 ∧ ∀ a ∈ s.accesses, a.Inside := by
  obtain ⟨s, hs, hlen⟩ := System.exists_of_run (C := InBounds)
    [.recv [2, 1, 2, 0], .iterate, .recv [0, 0, 8, 1], .iterate, .iterate]
    (fun s => s.accesses.length == 7) reachable_empty (by decide +kernel) (by decide +kernel)
  exact ⟨s, by simpa using hlen, (receives_inside hs).1⟩

/-- A full buffer that holds the beginning of a message of 2000 bytes. -/
def fullChunk : Bytes := [1, 1] ++ LittleEndian.bytes 4 2000 ++ List.replicate 1434 0

/-- The next byte is written behind the buffer. -/
theorem receives_past_end :
    ¬ ∀ s, receiving.Reachable System.anyStep s → ∀ a ∈ s.accesses, a.Inside := by
  intro hall
  obtain ⟨s, hs, hmem⟩ := System.exists_of_run [.recv fullChunk, .iterate, .recv [0]]
    (fun s : Receiver => decide (Access.mk 1440 1 ∈ s.accesses)) reachable_empty
    (System.allowed_anyStep _ _) (by decide +kernel)
  exact absurd (hall s hs ⟨1440, 1⟩ (of_decide_eq_true hmem)) (by decide)

end Receiver
end NanoRaft
