import NanoRaft.Buffers
import NanoRaft.Wire

/-!
# The parsers of the messages

`MergePartialFromCodedStream` of the six messages in `protocol/api.pb.cc`. A parse that fails
leaves the object with the fields set up to there, so `parseFromArray` gives both: whether the
bytes were accepted, and the object.

* `parseFromArray_cut`: a message cut off behind the tag of its entries is rejected, with the
  term already set.
-/

namespace NanoRaft

open Entry (readVarint)

/-! ## Fields -/

namespace Protobuf

variable {α : Type}

/-- `ReadPrimitive` of a `uint32`, which is assigned even when its varint is broken. -/
def readUInt32 (lib : Protobuf) (old : UInt32) (set : UInt32 → α) (bs : Bytes) :
    α × Option Bytes :=
  match readVarint 10 bs with
  | some (v, rest) => (set (UInt32.ofNat v), some rest)
  | none => (set (lib.brokenVarint bs old), none)

/-- `ReadPrimitive` of a `bool`, which is assigned from a local variable. -/
def readBool (m : α) (set : Bool → α) (bs : Bytes) : α × Option Bytes :=
  match readVarint 10 bs with
  | some (v, rest) => (set (decide (v % 2 ^ 64 ≠ 0)), some rest)
  | none => (m, none)

/-- `ReadString` and `VerifyUtf8String` of a field that nothing reads. -/
def passString (lib : Protobuf) (m : α) (bs : Bytes) : α × Option Bytes :=
  match readVarint 10 bs with
  | none => (m, none)
  | some (v, rest) =>
    (m, if v % 2 ^ 32 ≤ rest.length ∧ lib.validUtf8 (rest.take (v % 2 ^ 32)) then
      some (rest.drop (v % 2 ^ 32)) else none)

/-- A field that the message does not have. -/
def passUnknown (lib : Protobuf) (m : α) (tag : ℕ) (bs : Bytes) : α × Option Bytes :=
  (m, (lib.skipField tag bs).map fun n => bs.drop n)

/-! ### What follows a field is no longer than what was there -/

variable {lib : Protobuf} {m m' : α} {bs rest : Bytes}

theorem length_passString (h : lib.passString m bs = (m', some rest)) :
    rest.length ≤ bs.length := by
  unfold passString at h
  split at h
  · simp at h
  · next hv =>
    have hlt := Entry.length_readVarint hv
    simp only [Prod.mk.injEq, Option.ite_none_right_eq_some, Option.some.injEq] at h
    obtain ⟨_, _, rfl⟩ := h
    rw [List.length_drop]
    omega

theorem length_passUnknown {tag : ℕ} (h : lib.passUnknown m tag bs = (m', some rest)) :
    rest.length ≤ bs.length := by
  simp only [passUnknown, Prod.mk.injEq, Option.map_eq_some_iff] at h
  obtain ⟨_, n, _, rfl⟩ := h
  rw [List.length_drop]
  omega

end Protobuf

/-! ## The messages -/

def HandshakeQ.fields (lib : Protobuf) : FieldReader HandshakeQ where
  read m tag bs :=
    match tag with
    | 0x08 => lib.readUInt32 m.raftport (fun v => { m with raftport := v }) bs
    | 0x10 => lib.readUInt32 0 (fun _ => m) bs
    | 0x18 => lib.readUInt32 m.nodeid (fun v => { m with nodeid := v }) bs
    | tag => lib.passUnknown m tag bs
  shorter h := by
    split at h
    · exact Entry.length_of_varint h
    · exact Entry.length_of_varint h
    · exact Entry.length_of_varint h
    · exact Protobuf.length_passUnknown h

def HandshakeR.fields (lib : Protobuf) : FieldReader HandshakeR where
  read m tag bs :=
    match tag with
    | 0x08 => Protobuf.readBool m (fun v => { m with result := v }) bs
    | 0x12 => lib.passString m bs
    | 0x18 => lib.readUInt32 0 (fun _ => m) bs
    | tag => lib.passUnknown m tag bs
  shorter h := by
    split at h
    · exact Entry.length_of_varint h
    · exact Protobuf.length_passString h
    · exact Entry.length_of_varint h
    · exact Protobuf.length_passUnknown h

/-- `ReadMessage(input, add_entries())`: the entry is added before anything is read. A length
beyond the end is cut down to what is there. -/
def AppendEntriesQ.readEntry (lib : Protobuf) (m : AppendEntriesQ) (bs : Bytes) :
    AppendEntriesQ × Option Bytes :=
  match readVarint 10 bs with
  | none => ({ m with entries := m.entries ++ [Entry.new] }, none)
  | some (v, rest) =>
    if v % 2 ^ 64 < 2 ^ 31 then
      let (ok, e) := (Entry.fields lib).merge Entry.new (rest.take (v % 2 ^ 64))
      ({ m with entries := m.entries ++ [e] }, if ok then some (rest.drop (v % 2 ^ 64)) else none)
    else ({ m with entries := m.entries ++ [Entry.new] }, none)

theorem AppendEntriesQ.length_readEntry {lib : Protobuf} {m m' : AppendEntriesQ}
    {bs rest : Bytes} (h : AppendEntriesQ.readEntry lib m bs = (m', some rest)) :
    rest.length ≤ bs.length := by
  unfold AppendEntriesQ.readEntry at h
  split at h
  · simp at h
  · next hv =>
    have hlt := Entry.length_readVarint hv
    split at h
    · simp only [Prod.mk.injEq, Option.ite_none_right_eq_some, Option.some.injEq] at h
      obtain ⟨_, _, rfl⟩ := h
      rw [List.length_drop]
      omega
    · simp at h

def AppendEntriesQ.fields (lib : Protobuf) : FieldReader AppendEntriesQ where
  read m tag bs :=
    match tag with
    | 0x08 => lib.readUInt32 m.term (fun v => { m with term := v }) bs
    | 0x10 => lib.readUInt32 m.prelogindex (fun v => { m with prelogindex := v }) bs
    | 0x18 => lib.readUInt32 m.prelogterm (fun v => { m with prelogterm := v }) bs
    | 0x20 => lib.readUInt32 m.leadercommit (fun v => { m with leadercommit := v }) bs
    | 0x2A => AppendEntriesQ.readEntry lib m bs
    | tag => lib.passUnknown m tag bs
  shorter h := by
    split at h
    · exact Entry.length_of_varint h
    · exact Entry.length_of_varint h
    · exact Entry.length_of_varint h
    · exact Entry.length_of_varint h
    · exact AppendEntriesQ.length_readEntry h
    · exact Protobuf.length_passUnknown h

def AppendEntriesR.fields (lib : Protobuf) : FieldReader AppendEntriesR where
  read m tag bs :=
    match tag with
    | 0x08 => lib.readUInt32 m.term (fun v => { m with term := v }) bs
    | 0x10 => Protobuf.readBool m (fun v => { m with success := v }) bs
    | 0x18 => Protobuf.readBool m (fun v => { m with isheartbeat := v }) bs
    | tag => lib.passUnknown m tag bs
  shorter h := by
    split at h
    · exact Entry.length_of_varint h
    · exact Entry.length_of_varint h
    · exact Entry.length_of_varint h
    · exact Protobuf.length_passUnknown h

namespace MessageType

/-- What the handlers read of an object; a `requestvote` is not read at all. -/
def Object : MessageType → Type
  | .handshake_q => HandshakeQ
  | .handshake_r => HandshakeR
  | .appendentries_q => AppendEntriesQ
  | .appendentries_r => AppendEntriesR
  | .requestvote_q => Unit
  | .requestvote_r => Unit

/-- `NewMessage`. -/
def newMessage : (t : MessageType) → t.Object
  | .handshake_q => HandshakeQ.mk 0 0
  | .handshake_r => HandshakeR.mk false
  | .appendentries_q => AppendEntriesQ.mk 0 0 0 0 []
  | .appendentries_r => AppendEntriesR.mk 0 false false
  | .requestvote_q => ()
  | .requestvote_r => ()

/-- `requestvote_q` has four integer fields. -/
def requestvote_qFields (lib : Protobuf) : FieldReader Unit where
  read m tag bs :=
    if tag = 0x08 ∨ tag = 0x10 ∨ tag = 0x18 ∨ tag = 0x20 then lib.readUInt32 0 (fun _ => m) bs
    else lib.passUnknown m tag bs
  shorter h := by
    split at h
    · exact Entry.length_of_varint h
    · exact Protobuf.length_passUnknown h

/-- `requestvote_r` has an integer and a `bool`. -/
def requestvote_rFields (lib : Protobuf) : FieldReader Unit where
  read m tag bs :=
    match tag with
    | 0x08 => lib.readUInt32 0 (fun _ => m) bs
    | 0x10 => Protobuf.readBool m (fun _ => m) bs
    | tag => lib.passUnknown m tag bs
  shorter h := by
    split at h
    · exact Entry.length_of_varint h
    · exact Entry.length_of_varint h
    · exact Protobuf.length_passUnknown h

def fields (lib : Protobuf) : (t : MessageType) → FieldReader t.Object
  | .handshake_q => HandshakeQ.fields lib
  | .handshake_r => HandshakeR.fields lib
  | .appendentries_q => AppendEntriesQ.fields lib
  | .appendentries_r => AppendEntriesR.fields lib
  | .requestvote_q => requestvote_qFields lib
  | .requestvote_r => requestvote_rFields lib

/-- `ParseFromArray` on a new object. -/
def parseFromArray (lib : Protobuf) (t : MessageType) (payload : Bytes) : Bool × t.Object :=
  (t.fields lib).merge t.newMessage payload

end MessageType

/-! ## Facts -/

/-- The term is set by the time the parse fails at the entries. -/
theorem MessageType.parseFromArray_cut (lib : Protobuf) (term : UInt32) :
    MessageType.parseFromArray lib .appendentries_q
      (Entry.varintField 0x08 term.toNat ++ [0x2A]) =
      (false, AppendEntriesQ.mk term 0 0 0 [Entry.new]) := by
  -- the end of the payload, from any object
  have hend : ∀ m : AppendEntriesQ, (AppendEntriesQ.fields lib).merge m [0x2A] =
      (false, { m with entries := m.entries ++ [Entry.new] }) := by
    intro m
    exact FieldReader.merge_of_failure (Entry.readTag_cons [] (by decide) (by decide)) rfl
  show (AppendEntriesQ.fields lib).merge (AppendEntriesQ.mk 0 0 0 0 []) _ = _
  rw [Entry.varintField]
  by_cases hzero : term.toNat = 0
  · have hterm : term = 0 := UInt32.toNat_inj.mp hzero
    rw [if_pos hzero, List.nil_append, hend, hterm]
    rfl
  · have hlt := term.toNat_lt
    have hread : (AppendEntriesQ.fields lib).read (AppendEntriesQ.mk 0 0 0 0 []) 0x08
        (Entry.varint 9 term.toNat ++ [0x2A]) = (AppendEntriesQ.mk term 0 0 0 [], some [0x2A]) := by
      have hfield : ∀ bs, (AppendEntriesQ.fields lib).read (AppendEntriesQ.mk 0 0 0 0 []) 0x08 bs =
          lib.readUInt32 0 (fun v => AppendEntriesQ.mk v 0 0 0 []) bs := fun _ => rfl
      rw [hfield, Protobuf.readUInt32, Entry.readVarint_varint [0x2A] (by omega)]
      simp only [UInt32.ofNat_toNat]
    rw [if_neg hzero, List.cons_append,
      FieldReader.merge_of_field (Entry.readTag_cons _ (by decide) (by decide)) hread, hend]
    rfl

end NanoRaft
