import NanoRaft.Malformed
import NanoRaft.WriteInterest

/-!
# What is written is read back

`SerializeToArray` against `ParseFromArray` for the messages of `protocol/api.pb.cc`. The parser
of a message is taken field by field: `FieldReader.Reads` says what a stretch of bytes makes of
an object, whatever lies behind it, and composes along the encoding.

* `Message.reads_serialize`: parsing a message into an object is `MergeFrom`.
* `Message.read_back`: into a new object, it is the message, unless `VerifyUtf8String` rejects a
  host in it.
-/

namespace NanoRaft

open Entry (readVarint readVarint_varint readTag_cons varintField)

/-! ## Stretches of bytes -/

namespace FieldReader

variable {α : Type} {F : FieldReader α} {m m' m'' : α} {bs bs' : Bytes}

/-- These bytes turn `m` into `m'`, whatever follows them. -/
def Reads (F : FieldReader α) (m : α) (bs : Bytes) (m' : α) : Prop :=
  ∀ rest, F.merge m (bs ++ rest) = F.merge m' rest

theorem Reads.nil (F : FieldReader α) (m : α) : F.Reads m [] m := fun _ => rfl

theorem Reads.append (h : F.Reads m bs m') (h' : F.Reads m' bs' m'') :
    F.Reads m (bs ++ bs') m'' := by
  intro rest
  rw [List.append_assoc, h, h']

/-- The end of the bytes is the end of the message. -/
theorem merge_nil (F : FieldReader α) (m : α) : F.merge m [] = (true, m) := rfl

theorem Reads.merge (h : F.Reads m bs m') : F.merge m bs = (true, m') := by
  have hend := h []
  rw [List.append_nil, merge_nil] at hend
  exact hend

/-- A field with a tag of one byte. -/
theorem Reads.field {b : UInt8} (hb : 0 < b.toNat ∧ b.toNat < 128)
    (h : ∀ rest, F.read m b.toNat (bs ++ rest) = (m', some rest)) : F.Reads m (b :: bs) m' := by
  intro rest
  exact merge_of_field (readTag_cons _ hb.1 hb.2) (h rest)

/-- A field with a tag of one byte at which the parse fails. -/
theorem merge_fst_of_failure {b : UInt8} (hb : 0 < b.toNat ∧ b.toNat < 128)
    (h : (F.read m b.toNat bs).2 = none) : (F.merge m (b :: bs)).1 = false := by
  rw [merge_of_failure (readTag_cons _ hb.1 hb.2) (Prod.ext rfl h)]

/-- One stretch after the other, each with its own object. -/
theorem Reads.flatMap {β : Type} {enc : β → Bytes} {merged : α → β → α} (xs : List β)
    (h : ∀ x ∈ xs, ∀ m, F.Reads m (enc x) (merged m x)) (m : α) :
    F.Reads m (xs.flatMap enc) (xs.foldl merged m) := by
  induction xs generalizing m with
  | nil => exact Reads.nil F m
  | cons x xs ih =>
    rw [List.flatMap_cons, List.foldl_cons]
    apply Reads.append (h x List.mem_cons_self m)
    apply ih
    intro y hy
    exact h y (List.mem_cons_of_mem x hy)

/-- A `uint32` field. One left out leaves the old value. -/
theorem Reads.uint32 {lib : Protobuf} {tag : UInt8} {old : UInt32} (set : UInt32 → α) (n : UInt32)
    (htag : 0 < tag.toNat ∧ tag.toNat < 128) (hold : set old = m)
    (h : ∀ bs, F.read m tag.toNat bs = lib.readUInt32 old set bs) :
    F.Reads m (varintField tag n.toNat) (set (if n = 0 then old else n)) := by
  unfold Entry.varintField
  by_cases hn : n = 0
  · have hzero : n.toNat = 0 := by
      rw [hn]
      rfl
    rw [if_pos hzero, if_pos hn, hold]
    exact Reads.nil F m
  · have hpos : n.toNat ≠ 0 := fun h0 => hn (UInt32.toNat_inj.mp h0)
    have hlt := n.toNat_lt
    rw [if_neg hpos, if_neg hn]
    apply Reads.field htag
    intro rest
    rw [h, Protobuf.readUInt32, readVarint_varint rest (by omega)]
    simp only [UInt32.ofNat_toNat]

/-- A `bool` field. -/
theorem Reads.bool {tag : UInt8} {old : Bool} (set : Bool → α) (b : Bool)
    (htag : 0 < tag.toNat ∧ tag.toNat < 128) (hold : set old = m)
    (h : ∀ bs, F.read m tag.toNat bs = Protobuf.readBool m set bs) :
    F.Reads m (boolField tag b) (set (if b then true else old)) := by
  cases b with
  | false =>
    rw [if_neg Bool.false_ne_true, hold]
    exact Reads.nil F m
  | true =>
    apply Reads.field htag
    intro rest
    rw [h, Protobuf.readBool, readVarint_varint rest (by decide)]
    rfl

end FieldReader

open FieldReader (Reads)

/-! ## Entries -/

namespace Entry

variable {lib : Protobuf}

/-- `entry::MergeFrom`. -/
def mergeFrom (e src : Entry) : Entry where
  host := if src.host = [] then e.host else src.host
  type := if src.type = .NORMAL then e.type else src.type
  term := if src.term = 0 then e.term else src.term
  nodeid := if src.nodeid = 0 then e.nodeid else src.nodeid
  port := if src.port = 0 then e.port else src.port
  write_it := if src.write_it = 0 then e.write_it else src.write_it

theorem new_mergeFrom (e : Entry) : new.mergeFrom e = e := by
  cases e with
  | mk type term nodeid port host write_it =>
    simp only [mergeFrom, new, Entry.mk.injEq]
    refine ⟨?_, ?_, ?_, ?_, ?_, ?_⟩ <;> exact ite_eq_right_iff.mpr Eq.symm

/-- The parser takes the entry back: `VerifyUtf8String` accepts the host, and the length is an
`int`. -/
structure Accepted (lib : Protobuf) (e : Entry) : Prop where
  host : e.host = [] ∨ lib.validUtf8 e.host = true
  length : e.serialize.length < 2 ^ 31

theorem length_host_le (e : Entry) : e.host.length ≤ e.serialize.length := by
  unfold serialize
  split_ifs with hnil
  · rw [hnil]
    exact Nat.zero_le _
  · simp only [List.length_append, List.length_cons]
    omega

theorem Accepted.length_host {e : Entry} (h : e.Accepted lib) : e.host.length < 2 ^ 31 :=
  lt_of_le_of_lt (length_host_le e) h.length

theorem reads_type (e : Entry) (t : EntryType) :
    (fields lib).Reads e (varintField 0x08 (typeNumber t))
      { e with type := if t = .NORMAL then e.type else t } := by
  cases t with
  | NORMAL => exact Reads.nil _ e
  | CFGADD => exact Reads.field (by decide) fun rest => rfl
  | CFGREM => exact Reads.field (by decide) fun rest => rfl

theorem reads_host (e : Entry) {host : Bytes} (hlen : host.length < 2 ^ 31)
    (hutf : host = [] ∨ lib.validUtf8 host = true) :
    (fields lib).Reads e (hostField host)
      { e with host := if host = [] then e.host else host } := by
  unfold hostField
  by_cases hnil : host = []
  · rw [if_pos hnil, if_pos hnil]
    exact Reads.nil _ e
  · have hmod : host.length % 2 ^ 32 = host.length := Nat.mod_eq_of_lt (by omega)
    rw [if_neg hnil, if_neg hnil, List.cons_append]
    apply Reads.field (by decide)
    intro rest
    show parseHost lib e _ = _
    rw [List.append_assoc, parseHost, readVarint_varint _ (by omega)]
    simp only [hmod, List.length_append, Nat.le_add_right, if_true, List.take_left, List.drop_left,
      hutf.resolve_left hnil]

/-- The fields in front of the host. -/
theorem reads_numbers (src e : Entry) :
    (fields lib).Reads e
      (varintField 0x08 (typeNumber src.type) ++ varintField 0x10 src.term.toNat ++
        varintField 0x18 src.nodeid.toNat ++ varintField 0x20 src.port.toNat)
      { e.mergeFrom src with host := e.host, write_it := e.write_it } := by
  let m := e.mergeFrom src
  have htype : (fields lib).Reads e (varintField 0x08 (typeNumber src.type))
      { e with type := m.type } := reads_type e src.type
  have hterm : (fields lib).Reads { e with type := m.type } (varintField 0x10 src.term.toNat)
      { e with type := m.type, term := m.term } :=
    Reads.uint32 (fun v => { e with type := m.type, term := v }) src.term (by decide) rfl
      fun _ => rfl
  have hnodeid : (fields lib).Reads { e with type := m.type, term := m.term }
      (varintField 0x18 src.nodeid.toNat)
      { e with type := m.type, term := m.term, nodeid := m.nodeid } :=
    Reads.uint32 (fun v => { e with type := m.type, term := m.term, nodeid := v }) src.nodeid
      (by decide) rfl fun _ => rfl
  have hport : (fields lib).Reads { e with type := m.type, term := m.term, nodeid := m.nodeid }
      (varintField 0x20 src.port.toNat) { m with host := e.host, write_it := e.write_it } :=
    Reads.uint32 (fun v => { m with host := e.host, write_it := e.write_it, port := v }) src.port
      (by decide) rfl fun _ => rfl
  exact ((htype.append hterm).append hnodeid).append hport

/-- An entry read into an entry: `MergeFrom`. -/
theorem reads_serialize {src : Entry} (h : src.Accepted lib) (e : Entry) :
    (fields lib).Reads e src.serialize (e.mergeFrom src) := by
  let m := e.mergeFrom src
  have hhost := reads_host { m with host := e.host, write_it := e.write_it } h.length_host h.host
  have hwrite : (fields lib).Reads { m with write_it := e.write_it }
      (varintField 0x30 src.write_it.toNat) m :=
    Reads.uint32 (fun v => { m with write_it := v }) src.write_it (by decide) rfl fun _ => rfl
  exact ((reads_numbers src e).append hhost).append hwrite

/-- A host that `VerifyUtf8String` rejects ends the parse. -/
theorem refuses_serialize {src : Entry} (hlen : src.serialize.length < 2 ^ 31)
    (hhost : src.host ≠ []) (hutf : lib.validUtf8 src.host = false) (e : Entry) :
    ((fields lib).merge e src.serialize).1 = false := by
  have hmod : src.host.length % 2 ^ 32 = src.host.length := by
    have hle := length_host_le src
    exact Nat.mod_eq_of_lt (by omega)
  unfold serialize
  rw [if_neg hhost, List.append_assoc, reads_numbers src e, List.cons_append]
  apply FieldReader.merge_fst_of_failure (by decide)
  show (parseHost lib _ (_ ++ _ ++ _)).2 = none
  rw [List.append_assoc, parseHost, readVarint_varint _ (by omega)]
  simp only [hmod, List.length_append, Nat.le_add_right, if_true, List.take_left, hutf,
    Bool.false_eq_true, if_false]

/-- It is read back from the bytes of its own. -/
theorem merge_serialize {e : Entry} (h : e.Accepted lib) :
    (fields lib).merge new e.serialize = (true, e) := by
  have hread := reads_serialize h new
  rw [new_mergeFrom] at hread
  exact hread.merge

end Entry

/-! ## Messages -/

/-- `handshake_q::MergeFrom`. -/
def HandshakeQ.mergeFrom (q src : HandshakeQ) : HandshakeQ where
  raftport := if src.raftport = 0 then q.raftport else src.raftport
  nodeid := if src.nodeid = 0 then q.nodeid else src.nodeid

/-- `handshake_r::MergeFrom`. -/
def HandshakeR.mergeFrom (r src : HandshakeR) : HandshakeR where
  result := if src.result then true else r.result

/-- `appendentries_q::MergeFrom`. -/
def AppendEntriesQ.mergeFrom (q src : AppendEntriesQ) : AppendEntriesQ where
  entries := q.entries ++ src.entries
  term := if src.term = 0 then q.term else src.term
  prelogindex := if src.prelogindex = 0 then q.prelogindex else src.prelogindex
  prelogterm := if src.prelogterm = 0 then q.prelogterm else src.prelogterm
  leadercommit := if src.leadercommit = 0 then q.leadercommit else src.leadercommit

/-- `appendentries_r::MergeFrom`. -/
def AppendEntriesR.mergeFrom (r src : AppendEntriesR) : AppendEntriesR where
  term := if src.term = 0 then r.term else src.term
  success := if src.success then true else r.success
  isheartbeat := if src.isheartbeat then true else r.isheartbeat

namespace Message

/-- The type an object is created of for this message. -/
def type : Message → MessageType
  | .handshake_q _ => .handshake_q
  | .handshake_r _ => .handshake_r
  | .appendentries_q _ => .appendentries_q
  | .appendentries_r _ => .appendentries_r

/-- The message as an object of its type. -/
def object : (m : Message) → m.type.Object
  | .handshake_q q => q
  | .handshake_r r => r
  | .appendentries_q q => q
  | .appendentries_r r => r

/-- `MergeFrom` into an object of the type of the message. -/
def mergeInto : (m : Message) → m.type.Object → m.type.Object
  | .handshake_q q, (o : HandshakeQ) => o.mergeFrom q
  | .handshake_r r, (o : HandshakeR) => o.mergeFrom r
  | .appendentries_q q, (o : AppendEntriesQ) => o.mergeFrom q
  | .appendentries_r r, (o : AppendEntriesR) => o.mergeFrom r

/-- The parser takes the message back if it takes its entries back. -/
def Accepted (lib : Protobuf) : Message → Prop
  | .appendentries_q q => ∀ e ∈ q.entries, e.Accepted lib
  | _ => True

variable {lib : Protobuf}

/-- The hosts in it pass `VerifyUtf8String`. -/
def ValidHosts (lib : Protobuf) : Message → Prop
  | .appendentries_q q => ∀ e ∈ q.entries, e.host = [] ∨ lib.validUtf8 e.host = true
  | _ => True

/-- An entry is no longer than the message. -/
theorem length_entry_le {q : AppendEntriesQ} {e : Entry} (he : e ∈ q.entries) :
    e.serialize.length ≤ (serialize (.appendentries_q q)).length := by
  have hentry : e.serialize.length ≤ (entriesField q.entries).length := by
    have hle := ((List.singleton_sublist.mpr he).flatMap fun e : Entry =>
      0x2A :: Entry.varint 9 e.serialize.length ++ e.serialize).length_le
    rw [List.flatMap_singleton, List.length_append] at hle
    exact le_trans (Nat.le_add_left _ _) hle
  refine le_trans hentry ?_
  show _ ≤ (_ ++ entriesField q.entries).length
  rw [List.length_append]
  exact Nat.le_add_left _ _

theorem accepted_of_validHosts {m : Message} (h : m.ValidHosts lib)
    (hlen : m.serialize.length < 2 ^ 31) : m.Accepted lib := by
  cases m with
  | appendentries_q q => exact fun e he => ⟨h e he, lt_of_le_of_lt (length_entry_le he) hlen⟩
  | handshake_q q => trivial
  | handshake_r r => trivial
  | appendentries_r r => trivial

/-- A field merged into its default. -/
theorem merged_zero (n : UInt32) : (if n = 0 then 0 else n) = n := ite_eq_right_iff.mpr Eq.symm

theorem merged_false (b : Bool) : (if b then true else false) = b := by
  cases b <;> rfl

/-- Into a new object. -/
theorem mergeInto_newMessage (m : Message) : m.mergeInto m.type.newMessage = m.object := by
  cases m with
  | handshake_q q => exact congrArg₂ HandshakeQ.mk (merged_zero _) (merged_zero _)
  | handshake_r r => exact congrArg HandshakeR.mk (merged_false _)
  | appendentries_q q =>
    show AppendEntriesQ.mk (if q.term = 0 then 0 else q.term)
      (if q.prelogindex = 0 then 0 else q.prelogindex) (if q.prelogterm = 0 then 0 else q.prelogterm)
      (if q.leadercommit = 0 then 0 else q.leadercommit) ([] ++ q.entries) = q
    simp only [merged_zero, List.nil_append]
  | appendentries_r r =>
    show AppendEntriesR.mk (if r.term = 0 then 0 else r.term) (if r.success then true else false)
      (if r.isheartbeat then true else false) = r
    simp only [merged_zero, merged_false]

/-! ### Reading them -/

theorem reads_handshake_q (o q : HandshakeQ) :
    (HandshakeQ.fields lib).Reads o (serialize (.handshake_q q)) (o.mergeFrom q) := by
  let m := o.mergeFrom q
  have hport : (HandshakeQ.fields lib).Reads o (varintField 0x08 q.raftport.toNat)
      { o with raftport := m.raftport } :=
    Reads.uint32 (fun v => { o with raftport := v }) q.raftport (by decide) rfl fun _ => rfl
  have hnodeid : (HandshakeQ.fields lib).Reads { o with raftport := m.raftport }
      (varintField 0x18 q.nodeid.toNat) m :=
    Reads.uint32 (fun v => { m with nodeid := v }) q.nodeid (by decide) rfl fun _ => rfl
  exact hport.append hnodeid

theorem reads_handshake_r (o r : HandshakeR) :
    (HandshakeR.fields lib).Reads o (serialize (.handshake_r r)) (o.mergeFrom r) :=
  Reads.bool (fun v => { o with result := v }) r.result (by decide) rfl fun _ => rfl

/-- The entries are added one by one, each read into a new entry. -/
theorem reads_entries (o : AppendEntriesQ) {es : List Entry} (h : ∀ e ∈ es, e.Accepted lib) :
    (AppendEntriesQ.fields lib).Reads o (entriesField es) { o with entries := o.entries ++ es } := by
  have hone : ∀ e ∈ es, ∀ o : AppendEntriesQ, (AppendEntriesQ.fields lib).Reads o
      (0x2A :: Entry.varint 9 e.serialize.length ++ e.serialize)
      { o with entries := o.entries ++ [e] } := by
    intro e he o
    have hlen := (h e he).length
    have hmod : e.serialize.length % 2 ^ 64 = e.serialize.length := Nat.mod_eq_of_lt (by omega)
    rw [List.cons_append]
    apply Reads.field (by decide)
    intro rest
    show AppendEntriesQ.readEntry lib o _ = _
    rw [List.append_assoc, AppendEntriesQ.readEntry, readVarint_varint _ (by omega)]
    simp only [hmod, if_pos hlen, List.take_left, List.drop_left, Entry.merge_serialize (h e he),
      if_true]
  have hall := Reads.flatMap es hone o
  have hfold : ∀ (es : List Entry) (o : AppendEntriesQ),
      es.foldl (fun o e => { o with entries := o.entries ++ [e] }) o =
        { o with entries := o.entries ++ es } := by
    intro es
    induction es with
    | nil =>
      intro o
      rw [List.foldl_nil, List.append_nil]
    | cons e es ih =>
      intro o
      rw [List.foldl_cons, ih, List.append_assoc, List.singleton_append]
  rw [hfold] at hall
  exact hall

/-- The fields in front of the entries. -/
theorem reads_header (q o : AppendEntriesQ) :
    (AppendEntriesQ.fields lib).Reads o
      (varintField 0x08 q.term.toNat ++ varintField 0x10 q.prelogindex.toNat ++
        varintField 0x18 q.prelogterm.toNat ++ varintField 0x20 q.leadercommit.toNat)
      { o.mergeFrom q with entries := o.entries } := by
  let m := o.mergeFrom q
  have hterm : (AppendEntriesQ.fields lib).Reads o (varintField 0x08 q.term.toNat)
      { o with term := m.term } :=
    Reads.uint32 (fun v => { o with term := v }) q.term (by decide) rfl fun _ => rfl
  have hindex : (AppendEntriesQ.fields lib).Reads { o with term := m.term }
      (varintField 0x10 q.prelogindex.toNat)
      { o with term := m.term, prelogindex := m.prelogindex } :=
    Reads.uint32 (fun v => { o with term := m.term, prelogindex := v }) q.prelogindex
      (by decide) rfl fun _ => rfl
  have hprev : (AppendEntriesQ.fields lib).Reads
      { o with term := m.term, prelogindex := m.prelogindex }
      (varintField 0x18 q.prelogterm.toNat)
      { m with leadercommit := o.leadercommit, entries := o.entries } :=
    Reads.uint32
      (fun v => { m with leadercommit := o.leadercommit, entries := o.entries, prelogterm := v })
      q.prelogterm (by decide) rfl fun _ => rfl
  have hcommit : (AppendEntriesQ.fields lib).Reads
      { m with leadercommit := o.leadercommit, entries := o.entries }
      (varintField 0x20 q.leadercommit.toNat) { m with entries := o.entries } :=
    Reads.uint32 (fun v => { m with entries := o.entries, leadercommit := v }) q.leadercommit
      (by decide) rfl fun _ => rfl
  exact ((hterm.append hindex).append hprev).append hcommit

theorem reads_appendentries_q (o : AppendEntriesQ) {q : AppendEntriesQ}
    (h : ∀ e ∈ q.entries, e.Accepted lib) :
    (AppendEntriesQ.fields lib).Reads o (serialize (.appendentries_q q)) (o.mergeFrom q) :=
  (reads_header q o).append (reads_entries { o.mergeFrom q with entries := o.entries } h)

theorem reads_appendentries_r (o r : AppendEntriesR) :
    (AppendEntriesR.fields lib).Reads o (serialize (.appendentries_r r)) (o.mergeFrom r) := by
  let m := o.mergeFrom r
  have hterm : (AppendEntriesR.fields lib).Reads o (varintField 0x08 r.term.toNat)
      { o with term := m.term } :=
    Reads.uint32 (fun v => { o with term := v }) r.term (by decide) rfl fun _ => rfl
  have hsuccess : (AppendEntriesR.fields lib).Reads { o with term := m.term }
      (boolField 0x10 r.success) { m with isheartbeat := o.isheartbeat } :=
    Reads.bool (fun v => { m with isheartbeat := o.isheartbeat, success := v }) r.success
      (by decide) rfl fun _ => rfl
  have hbeat : (AppendEntriesR.fields lib).Reads { m with isheartbeat := o.isheartbeat }
      (boolField 0x18 r.isheartbeat) m :=
    Reads.bool (fun v => { m with isheartbeat := v }) r.isheartbeat (by decide) rfl fun _ => rfl
  exact (hterm.append hsuccess).append hbeat

/-- Parsing a message into an object is `MergeFrom`, whatever lies behind the message. -/
theorem reads_serialize {m : Message} (h : m.Accepted lib) (o : m.type.Object) :
    (m.type.fields lib).Reads o m.serialize (m.mergeInto o) := by
  cases m with
  | handshake_q q => exact reads_handshake_q o q
  | handshake_r r => exact reads_handshake_r o r
  | appendentries_q q => exact reads_appendentries_q o h
  | appendentries_r r => exact reads_appendentries_r o r

/-- The entries in front of the first host that `VerifyUtf8String` rejects are read, and the
parse ends in that one. -/
theorem refuses_entries {es : List Entry} (hlen : ∀ e ∈ es, e.serialize.length < 2 ^ 31)
    (hbad : ¬ ∀ e ∈ es, e.host = [] ∨ lib.validUtf8 e.host = true) (o : AppendEntriesQ) :
    ((AppendEntriesQ.fields lib).merge o (entriesField es)).1 = false := by
  induction es generalizing o with
  | nil => exact absurd (List.forall_mem_nil _) hbad
  | cons e es ih =>
    have hlast : ∀ e' ∈ es, e'.serialize.length < 2 ^ 31 :=
      fun e' he' => hlen e' (List.mem_cons_of_mem e he')
    have hfirst := hlen e List.mem_cons_self
    by_cases hhost : e.host = [] ∨ lib.validUtf8 e.host = true
    · have hread := reads_entries o (List.forall_mem_singleton.mpr ⟨hhost, hfirst⟩)
      have hsplit : entriesField ([e] ++ es) = entriesField [e] ++ entriesField es := by
        rw [entriesField, List.flatMap_append]
        rfl
      rw [← List.singleton_append, hsplit, hread]
      refine ih hlast (fun hall => hbad ?_) _
      exact List.forall_mem_cons.mpr ⟨hhost, hall⟩
    · obtain ⟨hnil, hutf⟩ := not_or.mp hhost
      have hend := Entry.refuses_serialize hfirst hnil (Bool.not_eq_true _ ▸ hutf) Entry.new
      have hmod : e.serialize.length % 2 ^ 64 = e.serialize.length := Nat.mod_eq_of_lt (by omega)
      rw [entriesField, List.flatMap_cons, List.cons_append, List.cons_append]
      apply FieldReader.merge_fst_of_failure (by decide)
      show (AppendEntriesQ.readEntry lib o _).2 = none
      rw [List.append_assoc, AppendEntriesQ.readEntry, readVarint_varint _ (by omega)]
      simp only [hmod, if_pos hfirst, List.take_left, hend, Bool.false_eq_true, if_false]

theorem refuses_serialize {m : Message} (hlen : m.serialize.length < 2 ^ 31)
    (hbad : ¬ m.ValidHosts lib) :
    (MessageType.parseFromArray lib m.type m.serialize).1 = false := by
  cases m with
  | appendentries_q q =>
    have hheader : (AppendEntriesQ.fields lib).Reads (AppendEntriesQ.mk 0 0 0 0 []) _ _ :=
      reads_header q _
    refine (congrArg Prod.fst (hheader (entriesField q.entries))).trans ?_
    exact refuses_entries (fun e he => lt_of_le_of_lt (length_entry_le he) hlen) hbad _
  | handshake_q q => exact absurd trivial hbad
  | handshake_r r => exact absurd trivial hbad
  | appendentries_r r => exact absurd trivial hbad

theorem parse_serialize {m : Message} (h : m.Accepted lib) :
    MessageType.parseFromArray lib m.type m.serialize = (true, m.object) := by
  rw [MessageType.parseFromArray, (reads_serialize h _).merge, mergeInto_newMessage]

/-- The handler called with the object is that of the message. -/
theorem procObject_object (puts : Puts) (s : RaftServer) (fd : ℕ) (m : Message) :
    s.procObject puts fd m.type m.object = s.proc puts fd m := by
  cases m <;> rfl

/-- What is written is read back, and reaches the handler it was written for, exactly if the
hosts in it pass `VerifyUtf8String`. Two messages of a type behind each other are merged. -/
theorem read_back (lib : Protobuf) {m : Message} (hlen : m.serialize.length < 2 ^ 31) :
    ((MessageType.parseFromArray lib m.type m.serialize).1 = true ↔ m.ValidHosts lib) ∧
      (m.ValidHosts lib →
        (∀ (puts : Puts) (s : RaftServer) (fd : ℕ), s.procObject puts fd m.type
          (MessageType.parseFromArray lib m.type m.serialize).2 = s.proc puts fd m) ∧
        ∀ (o : m.type.Object) (rest : Bytes), (m.type.fields lib).merge o (m.serialize ++ rest) =
          (m.type.fields lib).merge (m.mergeInto o) rest) := by
  refine ⟨⟨fun hok => ?_, fun hvalid => ?_⟩, fun hvalid => ⟨fun puts s fd => ?_, fun o rest => ?_⟩⟩
  · by_contra hbad
    rw [refuses_serialize hlen hbad] at hok
    cases hok
  · rw [parse_serialize (accepted_of_validHosts hvalid hlen)]
  · rw [parse_serialize (accepted_of_validHosts hvalid hlen), procObject_object]
  · exact reads_serialize (accepted_of_validHosts hvalid hlen) o rest

/-- A leader's first message, with the entry of its own start. -/
def firstEntries : Message :=
  .appendentries_q ⟨1, 0, 0, 0, [⟨.CFGADD, 1, 1, 7778, RaftServer.startHost, 0⟩]⟩

theorem read_back_firstEntries :
    firstEntries.serialize.length < 2 ^ 31 ∧
      MessageType.parseFromArray RaftServer.asciiProtobuf firstEntries.type firstEntries.serialize =
        (true, firstEntries.object) := by
  have hlen : firstEntries.serialize.length < 2 ^ 31 := by decide +kernel
  have hvalid : firstEntries.ValidHosts RaftServer.asciiProtobuf := by
    intro e he
    obtain rfl := List.mem_singleton.mp he
    exact .inr (by decide +kernel)
  obtain ⟨hok, hmerged⟩ := read_back RaftServer.asciiProtobuf hlen
  have hread := (hmerged hvalid).2 firstEntries.type.newMessage []
  rw [List.append_nil, mergeInto_newMessage] at hread
  exact ⟨hlen, hread⟩

end Message

end NanoRaft
