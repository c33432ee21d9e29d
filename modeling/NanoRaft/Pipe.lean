import NanoRaft.Codec
import NanoRaft.Receive

/-!
# One direction of a connection

The bytes between two `Conn` objects: the output buffer of the one that writes, what the kernel
holds, and the input buffer of the one that reads. `Carries` says which messages they are; what
`send` and `recv` make of the bytes does not matter for it (`Carries.push`, `Carries.flush`,
`Carries.recv`), and an iteration of `HandleArrivedMsg` takes off the first one
(`Carries.arrivedMsg`).
-/

namespace NanoRaft

/-- The frame a message is sent in. -/
def Message.frame (m : Message) : Frame := ⟨m.id, m.serialize⟩

theorem Message.id_cases (m : Message) :
    m.id = 257 ∨ m.id = 258 ∨ m.id = 259 ∨ m.id = 260 := by
  cases m with
  | handshake_q q => exact Or.inl rfl
  | handshake_r r => exact Or.inr (Or.inl rfl)
  | appendentries_q q => exact Or.inr (Or.inr (Or.inl rfl))
  | appendentries_r r => exact Or.inr (Or.inr (Or.inr rfl))

theorem Message.registered_id (m : Message) : Mod.Registered m.id := by
  rcases m.id_cases with h | h | h | h <;> rw [h] <;> decide

theorem Message.messageType_id (m : Message) : Mod.messageType m.id = some m.type := by
  have hids : Mod.messageType 257 = some .handshake_q ∧ Mod.messageType 258 = some .handshake_r ∧
      Mod.messageType 259 = some .appendentries_q ∧
      Mod.messageType 260 = some .appendentries_r := by decide
  cases m with
  | handshake_q q => exact hids.1
  | handshake_r r => exact hids.2.1
  | appendentries_q q => exact hids.2.2.1
  | appendentries_r r => exact hids.2.2.2

/-- One direction of a connection. -/
structure Pipe where
  /-- `m_stOutBuffer_` of the end that writes. -/
  out : Buffer
  /-- What the kernel has taken and not delivered. -/
  transit : Bytes
  /-- `m_stInBuffer_` of the end that reads. -/
  inn : Buffer
  /-- So far every frame and every chunk has fitted into the buffer it was put in. -/
  fits : Bool

namespace Pipe

/-- Between two new `Conn` objects. -/
def new : Pipe := ⟨⟨fun _ => 0, 0⟩, [], ⟨fun _ => 0, 0⟩, true⟩

/-- Queue a message and send directly, as `HandlePreSendMsg`, `SendHandShakeQ` and
`SendAppendEntries` do. `send` takes at most what it is given. -/
def push (p : Pipe) (m : Message) (iSended : Int32) : Option Pipe :=
  let q := p.out.queue m.id m.serialize
  if iSended ≤ q.size then
    some { p with
      out := q.sentDirectly iSended
      transit := p.transit ++ q.content.take iSended.toInt.toNat
      fits := p.fits && decide (p.out.content.length + 6 + m.serialize.length ≤ bufferSize) }
  else none

/-- One message after the other. -/
def pushAll (p : Pipe) (iSended : ℕ → Int32) : List Message → Option Pipe
  | [] => some p
  | m :: ms => do
    let p ← p.push m (iSended 0)
    p.pushAll (fun i => iSended (i + 1)) ms

/-- `SendCallback`. -/
def flush (p : Pipe) (iSended : Int32) : Option Pipe :=
  if p.out.size ≤ 0 then some p
  else if iSended ≤ p.out.size then
    some { p with
      out := p.out.sendCallback iSended
      transit := p.transit ++ p.out.content.take iSended.toInt.toNat }
  else none

/-- `recv` in `RecvCallback`, asked for 1440 bytes, returns `n` of them. -/
def recv (p : Pipe) (n : ℕ) : Option Pipe :=
  if 0 < n ∧ n ≤ p.transit.length ∧ n ≤ bufferSize then
    some { p with
      transit := p.transit.drop n
      inn := p.inn.recv (p.transit.take n)
      fits := p.fits && decide (p.inn.content.length + n ≤ bufferSize) }
  else none

/-! ## The messages in it -/

/-- The bytes are those of these messages, which the other end can take. -/
structure Carries (lib : Protobuf) (p : Pipe) (ms : List Message) : Prop where
  out : p.out.Filled
  inn : p.inn.Filled
  stream : p.inn.content ++ p.transit ++ p.out.content = ms.flatMap fun m => m.frame.encode
  short : ∀ m ∈ ms, 6 + m.serialize.length ≤ bufferSize
  valid : ∀ m ∈ ms, m.ValidHosts lib

variable {lib : Protobuf} {p p' : Pipe} {m : Message} {ms : List Message} {iSended : Int32} {n : ℕ}

theorem carries_new (lib : Protobuf) : new.Carries lib [] := by
  constructor
  · exact ⟨by decide, by decide⟩
  · exact ⟨by decide, by decide⟩
  · rfl
  · exact fun m hm => absurd hm List.not_mem_nil
  · exact fun m hm => absurd hm List.not_mem_nil

/-- The parser takes each of them. -/
theorem Carries.accepted (h : p.Carries lib ms) (hm : m ∈ ms) : m.Accepted lib := by
  have hcap : bufferSize = 1440 := rfl
  have hshort := h.short m hm
  exact Message.accepted_of_validHosts (h.valid m hm) (by omega)

theorem Carries.push (h : p.Carries lib ms) (hm : m.ValidHosts lib)
    (hp : p.push m iSended = some p') (hfits : p'.fits = true) : p'.Carries lib (ms ++ [m]) := by
  simp only [Pipe.push, Option.ite_none_right_eq_some, Option.some.injEq] at hp
  obtain ⟨hle, rfl⟩ := hp
  rw [Bool.and_eq_true, decide_eq_true_iff] at hfits
  obtain ⟨hq, hcontent⟩ := Buffer.queue_filled h.out m.id hfits.2
  obtain ⟨hfilled, hrest⟩ := Buffer.sentDirectly_filled hq hle
  constructor
  · exact hfilled
  · exact h.inn
  · show _ ++ (p.transit ++ _) ++ Buffer.content (Buffer.sentDirectly _ _) = _
    rw [hrest, List.append_assoc, List.append_assoc, List.take_append_drop, hcontent,
      List.flatMap_append, List.flatMap_singleton, ← h.stream, List.append_assoc, List.append_assoc]
    rfl
  · intro m' hm'
    rcases List.mem_append.mp hm' with hm' | hm'
    · exact h.short m' hm'
    · rw [List.mem_singleton.mp hm']
      omega
  · intro m' hm'
    rcases List.mem_append.mp hm' with hm' | hm'
    · exact h.valid m' hm'
    · rw [List.mem_singleton.mp hm']
      exact hm

theorem fits_of_push (hp : p.push m iSended = some p') (hfits : p'.fits = true) :
    p.fits = true := by
  simp only [Pipe.push, Option.ite_none_right_eq_some, Option.some.injEq] at hp
  obtain ⟨_, rfl⟩ := hp
  exact (Bool.and_eq_true _ _ ▸ hfits).1

theorem fits_of_pushAll {iSended : ℕ → Int32} {ms' : List Message}
    (hp : p.pushAll iSended ms' = some p') (hfits : p'.fits = true) : p.fits = true := by
  induction ms' generalizing p iSended with
  | nil =>
    obtain rfl : p = p' := Option.some.inj hp
    exact hfits
  | cons m ms' ih =>
    obtain ⟨t, ht, hp⟩ := Option.bind_eq_some_iff.mp hp
    exact fits_of_push ht (ih hp)

theorem Carries.pushAll {iSended : ℕ → Int32} {ms' : List Message} (h : p.Carries lib ms)
    (hm : ∀ m ∈ ms', m.ValidHosts lib) (hp : p.pushAll iSended ms' = some p')
    (hfits : p'.fits = true) : p'.Carries lib (ms ++ ms') := by
  induction ms' generalizing p iSended ms with
  | nil =>
    obtain rfl : p = p' := Option.some.inj hp
    rw [List.append_nil]
    exact h
  | cons m ms' ih =>
    obtain ⟨t, ht, hp⟩ := Option.bind_eq_some_iff.mp hp
    have hone := h.push (hm m List.mem_cons_self) ht (fits_of_pushAll hp hfits)
    rw [List.append_cons]
    exact ih hone (fun m' hm' => hm m' (List.mem_cons_of_mem m hm')) hp

theorem Carries.flush (h : p.Carries lib ms) (hp : p.flush iSended = some p') :
    p'.Carries lib ms := by
  unfold Pipe.flush at hp
  split_ifs at hp with hempty hle
  · obtain rfl := Option.some.inj hp
    exact h
  · obtain rfl := Option.some.inj hp
    obtain ⟨hfilled, hrest⟩ := Buffer.sentDirectly_filled h.out hle
    rw [← Buffer.sendCallback_eq hle] at hfilled hrest
    refine ⟨hfilled, h.inn, ?_, h.short, h.valid⟩
    show _ ++ (p.transit ++ _) ++ Buffer.content (Buffer.sendCallback _ _) = _
    rw [hrest, List.append_assoc, List.append_assoc, List.take_append_drop, ← h.stream,
      List.append_assoc]

theorem Carries.recv (h : p.Carries lib ms) (hp : p.recv n = some p') (hfits : p'.fits = true) :
    p'.Carries lib ms := by
  simp only [Pipe.recv, Option.ite_none_right_eq_some, Option.some.injEq] at hp
  obtain ⟨⟨_, hn, _⟩, rfl⟩ := hp
  rw [Bool.and_eq_true, decide_eq_true_iff] at hfits
  have hlen : (p.transit.take n).length = n := by
    rw [List.length_take, min_eq_left hn]
  obtain ⟨hfilled, hcontent⟩ := Buffer.recv_filled h.inn (by rw [hlen]; exact hfits.2)
  refine ⟨h.out, hfilled, ?_, h.short, h.valid⟩
  show Buffer.content (Buffer.recv _ _) ++ _ ++ _ = _
  rw [hcontent, List.append_assoc p.inn.content, List.take_append_drop]
  exact h.stream

/-! ## Taking the first one off -/

theorem next_frame {m : Message} (h : 6 + m.serialize.length ≤ bufferSize) (later : Bytes) :
    wire.next (m.frame.encode ++ later) = some (m.frame, later) := by
  have hcap : bufferSize = 1440 := rfl
  have hlen : m.frame.payload.length < 2 ^ 32 := by
    show m.serialize.length < 2 ^ 32
    omega
  have hnext := wire.stable later (next_encode (f := m.frame) m.registered_id hlen)
  rw [List.nil_append] at hnext
  exact hnext

/-- A header in the input buffer is that of the first message. -/
theorem Carries.header (h : p.Carries lib ms) (h6 : 6 ≤ p.inn.content.length) :
    ∃ m rest, ms = m :: rest ∧ frameId p.inn.content = m.id ∧
      frameLen p.inn.content = m.serialize.length := by
  have hcap : bufferSize = 1440 := rfl
  have hstream := h.stream
  rw [List.append_assoc] at hstream
  cases ms with
  | nil =>
    have hnil := (List.append_eq_nil_iff.mp hstream).1
    rw [hnil] at h6
    exact absurd h6 (by decide)
  | cons m rest =>
    have hshort := h.short m List.mem_cons_self
    have hlen := length_encode m.frame
    rw [List.flatMap_cons] at hstream
    refine ⟨m, rest, rfl, ?_, ?_⟩
    · rw [← frameId_append _ h6, hstream, frameId_append _ (by omega), frameId_encode]
      rfl
    · rw [← frameLen_append _ h6, hstream, frameLen_append _ (by omega), frameLen_encode]
      · rfl
      · show m.serialize.length < 2 ^ 32
        omega

theorem Carries.headerInOrder (h : p.Carries lib ms) :
    HeaderInOrder Mod.Registered p.inn.content := by
  have hcap : bufferSize = 1440 := rfl
  intro h6 _
  obtain ⟨m, rest, hms, _, hlen⟩ := h.header h6
  have hshort := h.short m (by rw [hms]; exact List.mem_cons_self)
  omega

/-- **One iteration of `HandleArrivedMsg`.** It returns, or hands over the first message and
leaves the others. -/
theorem Carries.arrivedMsg (h : p.Carries lib ms) :
    (p.inn.arrivedMsg = .returned ∧ wire.next p.inn.content = none) ∨
    ∃ m rest, ms = m :: rest ∧ p.inn.arrivedMsg = .dispatched m.frame p.inn.takeOff ∧
      ({ p with inn := p.inn.takeOff } : Pipe).Carries lib rest ∧
      p.inn.takeOff.content.length < p.inn.content.length := by
  rcases Buffer.arrivedMsg_cases h.inn h.headerInOrder with ⟨hnone, hret | ⟨h6, hid, _⟩⟩ |
    ⟨f, hsome, harr, hfilled, _⟩
  · exact Or.inl ⟨hret, hnone⟩
  · -- the id is that of a message, which has a handler
    obtain ⟨m, _, _, hm, _⟩ := h.header h6
    rw [hm] at hid
    exact absurd m.registered_id hid
  · have hge : 6 ≤ p.inn.content.length := (nextFrame_eq_some hsome).1
    obtain ⟨m, rest, hms, _, _⟩ := h.header hge
    have hmem : m ∈ ms := by rw [hms]; exact List.mem_cons_self
    -- the frame found at the front of the stream is the frame sent first
    have hfound := wire.stable (p.transit ++ p.out.content) hsome
    have hstream := h.stream
    rw [List.append_assoc] at hstream
    rw [hstream, hms, List.flatMap_cons, next_frame (h.short m hmem), Option.some.injEq,
      Prod.mk.injEq] at hfound
    obtain ⟨hf, hrest⟩ := hfound
    refine Or.inr ⟨m, rest, hms, by rw [hf]; exact harr, ⟨h.out, hfilled, ?_, ?_, ?_⟩,
      wire.shorter hsome⟩
    · rw [hrest]
      exact List.append_assoc _ _ _
    · exact fun m' hm' => h.short m' (by rw [hms]; exact List.mem_cons_of_mem m hm')
    · exact fun m' hm' => h.valid m' (by rw [hms]; exact List.mem_cons_of_mem m hm')

end Pipe
end NanoRaft
