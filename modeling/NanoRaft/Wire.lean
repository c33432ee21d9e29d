import NanoRaft.RaftServerTheorems

/-!
# Reading an entry back

The parser of `api::entry` in `protocol/api.pb.cc`, and what `LoadEntries` makes of a value
of the entries DB: it hands 128 bytes to the parser, the value's and what lies behind them.

`Protobuf` collects what the library does where the wire format leaves it open. Whatever
that is, `load_undoes_append` says for which entries the value written by `AppendCfgLog` is
read back as the entry pushed: `parse_serialize` reads the fields of the encoding, and
`parse_tail_iff` says what may lie behind it. A parse is unfolded field by field in
`FieldReader`, the loop that all messages have in common.
-/

namespace NanoRaft

/-- The parts of the protobuf library that the wire format does not fix. -/
structure Protobuf where
  /-- The value of an integer field after a varint that is cut off or too long, given the
  bytes there were and the old value. -/
  brokenVarint : Bytes → UInt32 → UInt32
  /-- The value of a string field that is cut off, given the bytes there were and the old
  value. -/
  cutString : Bytes → Bytes → Bytes
  /-- It keeps the old value or takes of what is there. -/
  cutString_or : ∀ bs old, cutString bs old = old ∨ cutString bs old <+: bs
  /-- `VerifyUtf8String`. -/
  validUtf8 : Bytes → Bool
  /-- `SkipField`: how many bytes the field with this tag takes; `none` if it is malformed. -/
  skipField : ℕ → Bytes → Option ℕ

namespace Entry

/-! ## The parser -/

/-- A base-128 varint of at most `fuel` bytes, and what follows it. -/
def readVarint : (fuel : ℕ) → Bytes → Option (ℕ × Bytes)
  | 0, _ => none
  | _ + 1, [] => none
  | fuel + 1, b :: bs =>
    if b.toNat < 128 then some (b.toNat, bs)
    else (readVarint fuel bs).map fun r => (b.toNat - 128 + 128 * r.1, r.2)

/-- `ReadTag`: nothing at the end of the input, in a cut varint and on a zero tag. -/
def readTag (bs : Bytes) : Option (ℕ × Bytes) :=
  (readVarint 10 bs).bind fun r => if r.1 % 2 ^ 32 = 0 then none else some (r.1 % 2 ^ 32, r.2)

/-- The enumerator with a number. Proto3 keeps other numbers too; they are equal to none of
the enumerators the code compares with. -/
def typeOfNumber (n : ℕ) : EntryType :=
  if n = 1 then .CFGADD else if n = 2 then .CFGREM else .NORMAL

/-- A `uint32` field, which is assigned even when its varint is broken. -/
def parseUInt32 (lib : Protobuf) (old : UInt32) (set : UInt32 → Entry) (bs : Bytes) :
    Entry × Option Bytes :=
  match readVarint 10 bs with
  | some (v, rest) => (set (UInt32.ofNat v), some rest)
  | none => (set (lib.brokenVarint bs old), none)

/-- The field `type`, which is assigned from a local variable. -/
def parseType (e : Entry) (bs : Bytes) : Entry × Option Bytes :=
  match readVarint 10 bs with
  | some (v, rest) => ({ e with type := typeOfNumber (v % 2 ^ 32) }, some rest)
  | none => (e, none)

/-- The field `host`: read first, and checked then. -/
def parseHost (lib : Protobuf) (e : Entry) (bs : Bytes) : Entry × Option Bytes :=
  match readVarint 10 bs with
  | none => (e, none)
  | some (v, rest) =>
    if v % 2 ^ 32 ≤ rest.length then
      let host := rest.take (v % 2 ^ 32)
      ({ e with host := host },
        if lib.validUtf8 host then some (rest.drop (v % 2 ^ 32)) else none)
    else ({ e with host := lib.cutString rest e.host }, none)

/-- One field of `MergePartialFromCodedStream`: the entry after it, and what follows it
unless the parse fails. -/
def parseField (lib : Protobuf) (e : Entry) (tag : ℕ) (bs : Bytes) : Entry × Option Bytes :=
  match tag with
  | 0x08 => parseType e bs
  | 0x10 => parseUInt32 lib e.term (fun v => { e with term := v }) bs
  | 0x18 => parseUInt32 lib e.nodeid (fun v => { e with nodeid := v }) bs
  | 0x20 => parseUInt32 lib e.port (fun v => { e with port := v }) bs
  | 0x2A => parseHost lib e bs
  | 0x30 => parseUInt32 lib e.write_it (fun v => { e with write_it := v }) bs
  | tag => (e, (lib.skipField tag bs).map fun n => bs.drop n)

/-- `MergePartialFromCodedStream`. Every field takes a byte at least. -/
def parseFields (lib : Protobuf) : (fuel : ℕ) → Entry → Bytes → Entry
  | 0, e, _ => e
  | fuel + 1, e, bs =>
    match readTag bs with
    | none => e
    | some (tag, rest) =>
      match parseField lib e tag rest with
      | (e', none) => e'
      | (e', some rest') => parseFields lib fuel e' rest'

/-- The rest of a parse from the bytes left. -/
def parse (lib : Protobuf) (e : Entry) (bs : Bytes) : Entry := parseFields lib (bs.length + 1) e bs

/-- A default-constructed `api::entry`. -/
def new : Entry := ⟨.NORMAL, 0, 0, 0, [], 0⟩

/-- What `LoadEntries` makes of a value: 128 bytes are parsed, with those in memory behind
the value, and the result of `ParseFromArray` is ignored. -/
def load (lib : Protobuf) (memory : ℕ → UInt8) (value : Bytes) : Entry :=
  parse lib new ((value ++ (List.range 128).map memory).take 128)

/-! ## Reading varints -/

theorem length_readVarint {fuel n : ℕ} {bs rest : Bytes}
    (h : readVarint fuel bs = some (n, rest)) : rest.length < bs.length := by
  induction fuel generalizing bs n with
  | zero => exact absurd h.symm (Option.some_ne_none _)
  | succ fuel ih =>
    cases bs with
    | nil => exact absurd h.symm (Option.some_ne_none _)
    | cons b bs =>
      rw [readVarint] at h
      split_ifs at h with hb
      · obtain ⟨_, rfl⟩ := Prod.mk.inj (Option.some.inj h)
        rw [List.length_cons]
        omega
      · obtain ⟨⟨v, r⟩, hr, hv⟩ := Option.map_eq_some_iff.mp h
        obtain ⟨_, rfl⟩ := Prod.mk.inj hv
        have hlt := ih hr
        rw [List.length_cons]
        omega

theorem toNat_toUInt8 {n : ℕ} (h : n < 256) : n.toUInt8.toNat = n := by
  show (UInt8.ofNat n).toNat = n
  rw [UInt8.toNat_ofNat']
  exact Nat.mod_eq_of_lt h

/-- A varint is read back. -/
theorem readVarint_varint {fuel n : ℕ} (rest : Bytes) (h : n < 128 ^ (fuel + 1)) :
    readVarint (fuel + 1) (varint fuel n ++ rest) = some (n, rest) := by
  induction fuel generalizing n with
  | zero =>
    rw [pow_one] at h
    rw [varint, List.singleton_append, readVarint, toNat_toUInt8 (by omega), if_pos h]
  | succ fuel ih =>
    rw [pow_succ] at h
    rw [varint]
    by_cases hn : n < 128
    · rw [if_pos hn, List.singleton_append, readVarint, toNat_toUInt8 (by omega), if_pos hn]
    · rw [if_neg hn, List.cons_append, readVarint, toNat_toUInt8 (by omega), if_neg (by omega),
        ih (by omega), Option.map_some]
      congr 2
      omega

/-- A varint has no zero byte. -/
theorem zero_notMem_varint {fuel n : ℕ} (hn : 0 < n) (h : n < 128 ^ (fuel + 1)) :
    0 ∉ varint fuel n := by
  induction fuel generalizing n with
  | zero =>
    rw [pow_one] at h
    rw [varint, List.mem_singleton, ← UInt8.toNat_inj, toNat_toUInt8 (by omega)]
    exact Nat.ne_of_lt hn
  | succ fuel ih =>
    rw [pow_succ] at h
    rw [varint]
    by_cases hs : n < 128
    · rw [if_pos hs, List.mem_singleton, ← UInt8.toNat_inj, toNat_toUInt8 (by omega)]
      exact Nat.ne_of_lt hn
    · rw [if_neg hs, List.mem_cons, not_or, ← UInt8.toNat_inj, toNat_toUInt8 (by omega)]
      refine ⟨?_, ih (by omega) (by omega)⟩
      show ¬ 0 = _
      omega

theorem length_readTag {tag : ℕ} {bs rest : Bytes} (h : readTag bs = some (tag, rest)) :
    rest.length < bs.length := by
  obtain ⟨⟨v, r⟩, hv, h⟩ := Option.bind_eq_some_iff.mp h
  simp only [Option.ite_none_left_eq_some, Option.some.injEq, Prod.mk.injEq] at h
  obtain ⟨_, _, rfl⟩ := h
  exact length_readVarint hv

end Entry

/-! ## The loop of a parser -/

/-- The `switch` of a parser on a tag: the object after the field, and what follows the field
unless the parse fails. -/
structure FieldReader (α : Type) where
  read : α → ℕ → Bytes → α × Option Bytes
  shorter : ∀ {m m' : α} {tag : ℕ} {bs rest : Bytes},
    read m tag bs = (m', some rest) → rest.length ≤ bs.length

namespace FieldReader

variable {α : Type}

/-- The loop of `MergePartialFromCodedStream`, which ends without an error where no tag can be
read. The caller asks then whether that was the end of the bytes. -/
def mergeLoop (F : FieldReader α) : (fuel : ℕ) → α → Bytes → Bool × α
  | 0, m, bs => (bs.isEmpty, m)
  | fuel + 1, m, bs =>
    match Entry.readTag bs with
    | none => (bs.isEmpty, m)
    | some (tag, rest) =>
      match F.read m tag rest with
      | (m', none) => (false, m')
      | (m', some rest') => F.mergeLoop fuel m' rest'

/-- A parse of these bytes. Every field takes a byte at least. -/
def merge (F : FieldReader α) (m : α) (bs : Bytes) : Bool × α := F.mergeLoop (bs.length + 1) m bs

variable {F : FieldReader α} {m m' : α} {tag : ℕ} {bs rest rest' : Bytes}

/-- Any fuel above the number of bytes parses them all. -/
theorem mergeLoop_eq {fuel fuel' : ℕ} (h : bs.length < fuel) (h' : bs.length < fuel') :
    F.mergeLoop fuel m bs = F.mergeLoop fuel' m bs := by
  induction fuel generalizing fuel' m bs with
  | zero => omega
  | succ fuel ih =>
    obtain ⟨fuel', rfl⟩ : ∃ k, fuel' = k + 1 := ⟨fuel' - 1, by omega⟩
    rw [mergeLoop, mergeLoop]
    rcases ht : Entry.readTag bs with _ | ⟨tag, rest⟩
    · rfl
    · have hlt := Entry.length_readTag ht
      rcases hf : F.read m tag rest with ⟨m', _ | rest'⟩
      · simp only [hf]
      · have hle := F.shorter hf
        simp only [hf]
        exact ih (by omega) (by omega)

/-- A field after which the parse goes on. -/
theorem merge_of_field (ht : Entry.readTag bs = some (tag, rest))
    (hf : F.read m tag rest = (m', some rest')) : F.merge m bs = F.merge m' rest' := by
  have hlt := Entry.length_readTag ht
  have hle := F.shorter hf
  rw [merge, mergeLoop, ht]
  simp only [hf]
  exact mergeLoop_eq (by omega) (by omega)

/-- A field at which it fails. -/
theorem merge_of_failure (ht : Entry.readTag bs = some (tag, rest))
    (hf : F.read m tag rest = (m', none)) : F.merge m bs = (false, m') := by
  rw [merge, mergeLoop, ht]
  simp only [hf]

end FieldReader

namespace Entry

/-! ## Unfolding a parse -/

variable {lib : Protobuf}

/-- A field that is a varint takes the bytes of the varint. -/
theorem length_of_varint {α : Type} {read : ℕ → α} {broken m' : α} {bs rest : Bytes}
    (h : (match readVarint 10 bs with
      | some (v, rest) => (read v, some rest)
      | none => (broken, none)) = (m', some rest)) : rest.length ≤ bs.length := by
  rcases hv : readVarint 10 bs with _ | ⟨v, r⟩ <;> rw [hv] at h
  · simp at h
  · simp only [Prod.mk.injEq, Option.some.injEq] at h
    rw [← h.2]
    exact le_of_lt (length_readVarint hv)

theorem length_parseField {e e' : Entry} {tag : ℕ} {bs rest : Bytes}
    (h : parseField lib e tag bs = (e', some rest)) : rest.length ≤ bs.length := by
  unfold parseField at h
  split at h
  · exact length_of_varint h
  · exact length_of_varint h
  · exact length_of_varint h
  · exact length_of_varint h
  · rw [parseHost] at h
    rcases hv : readVarint 10 bs with _ | ⟨v, r⟩ <;> rw [hv] at h
    · simp at h
    · have hlt := length_readVarint hv
      simp only at h
      split_ifs at h
      · simp only [Prod.mk.injEq, Option.some.injEq] at h
        rw [← h.2, List.length_drop]
        omega
      · simp at h
      · simp at h
  · exact length_of_varint h
  · simp only [Prod.mk.injEq, Option.map_eq_some_iff] at h
    obtain ⟨_, n, _, rfl⟩ := h
    rw [List.length_drop]
    omega

/-- The parser of an entry as a reader of its fields. -/
def fields (lib : Protobuf) : FieldReader Entry where
  read := parseField lib
  shorter := length_parseField

theorem fields_read (lib : Protobuf) : (fields lib).read = parseField lib := rfl

theorem parse_eq_merge (e : Entry) (bs : Bytes) : parse lib e bs = ((fields lib).merge e bs).2 := by
  have key : ∀ (fuel : ℕ) (e : Entry) (bs : Bytes),
      parseFields lib fuel e bs = ((fields lib).mergeLoop fuel e bs).2 := by
    intro fuel
    induction fuel with
    | zero =>
      intro e bs
      rfl
    | succ fuel ih =>
      intro e bs
      rw [FieldReader.mergeLoop, parseFields, fields_read]
      rcases readTag bs with _ | ⟨tag, rest⟩
      · rfl
      · rcases hf : parseField lib e tag rest with ⟨e', _ | rest'⟩
        · simp only [hf]
        · simp only [hf]
          exact ih e' rest'
  exact key _ e bs

theorem parse_of_readTag_eq_none {e : Entry} {bs : Bytes} (h : readTag bs = none) :
    parse lib e bs = e := by
  rw [parse, parseFields, h]

/-- A field after which the parse goes on. -/
theorem parse_of_field {e e' : Entry} {tag : ℕ} {bs rest rest' : Bytes}
    (ht : readTag bs = some (tag, rest)) (hf : parseField lib e tag rest = (e', some rest')) :
    parse lib e bs = parse lib e' rest' := by
  rw [parse_eq_merge, FieldReader.merge_of_field ht hf, ← parse_eq_merge]

/-- A field at which it fails. -/
theorem parse_of_failure {e e' : Entry} {tag : ℕ} {bs rest : Bytes}
    (ht : readTag bs = some (tag, rest)) (hf : parseField lib e tag rest = (e', none)) :
    parse lib e bs = e' := by
  rw [parse_eq_merge, FieldReader.merge_of_failure ht hf]

/-- A one-byte tag. -/
theorem readTag_cons {b : UInt8} (rest : Bytes) (hpos : 0 < b.toNat) (h : b.toNat < 128) :
    readTag (b :: rest) = some (b.toNat, rest) := by
  have hmod : b.toNat % 2 ^ 32 = b.toNat := Nat.mod_eq_of_lt (by omega)
  rw [readTag, readVarint, if_pos h, Option.bind_some, hmod, if_neg (by omega)]

/-! ## The fields of a written entry -/

/-- The fields of `serialize` before the host. -/
def header (e : Entry) : Bytes :=
  varintField 0x08 (typeNumber e.type) ++ varintField 0x10 e.term.toNat
    ++ varintField 0x18 e.nodeid.toNat ++ varintField 0x20 e.port.toNat

/-- The field of the host. -/
def hostField (host : Bytes) : Bytes :=
  if host = [] then [] else 0x2A :: varint 9 host.length ++ host

theorem serialize_eq {e : Entry} (h : e.write_it = 0) :
    e.serialize = e.header ++ hostField e.host := by
  rw [serialize, h, header, hostField]
  exact List.append_nil _

theorem length_varint_le {k fuel n : ℕ} (hk : k ≤ fuel) (h : n < 128 ^ (k + 1)) :
    (varint fuel n).length ≤ k + 1 := by
  induction fuel generalizing k n with
  | zero =>
    rw [varint, List.length_singleton]
    omega
  | succ fuel ih =>
    rw [varint]
    by_cases hn : n < 128
    · rw [if_pos hn, List.length_singleton]
      omega
    · rw [if_neg hn, List.length_cons]
      cases k with
      | zero =>
        rw [zero_add, pow_one] at h
        omega
      | succ k =>
        rw [pow_succ] at h
        have hle := ih (Nat.le_of_succ_le_succ hk) (show n / 128 < 128 ^ (k + 1) by omega)
        omega

theorem length_varintField_le (tag : UInt8) {n : ℕ} (h : n < 2 ^ 32) :
    (varintField tag n).length ≤ 6 := by
  rw [varintField]
  split_ifs
  · exact Nat.zero_le _
  · have hle : (varint 9 n).length ≤ 4 + 1 := length_varint_le (by omega) (by omega)
    rw [List.length_cons]
    omega

theorem length_header_le (e : Entry) : e.header.length ≤ 24 := by
  have htype : typeNumber e.type < 2 ^ 32 := by
    cases e.type <;> decide
  have h1 := length_varintField_le 0x08 htype
  have h2 := length_varintField_le 0x10 e.term.toNat_lt
  have h3 := length_varintField_le 0x18 e.nodeid.toNat_lt
  have h4 := length_varintField_le 0x20 e.port.toNat_lt
  simp only [header, List.length_append]
  omega

theorem zero_notMem_varintField {tag : UInt8} {n : ℕ} (htag : 0 ≠ tag) (h : n < 2 ^ 32) :
    0 ∉ varintField tag n := by
  rw [varintField]
  split_ifs with hn
  · exact List.not_mem_nil
  · rw [List.mem_cons, not_or]
    exact ⟨htag, zero_notMem_varint (by omega) (by omega)⟩

theorem zero_notMem_header (e : Entry) : 0 ∉ e.header := by
  have htype : typeNumber e.type < 2 ^ 32 := by
    cases e.type <;> decide
  simp only [header, List.mem_append, not_or]
  exact ⟨⟨⟨zero_notMem_varintField (by decide) htype,
    zero_notMem_varintField (by decide) e.term.toNat_lt⟩,
    zero_notMem_varintField (by decide) e.nodeid.toNat_lt⟩,
    zero_notMem_varintField (by decide) e.port.toNat_lt⟩

/-- A `uint32` field is read back; one left out is the default that is there. -/
theorem parse_varintField {e : Entry} {tag : UInt8} {old : UInt32} (set : UInt32 → Entry)
    (n : UInt32) (rest : Bytes) (htag : 0 < tag.toNat ∧ tag.toNat < 128)
    (hf : ∀ bs, parseField lib e tag.toNat bs = parseUInt32 lib old set bs) (hzero : set 0 = e) :
    parse lib e (varintField tag n.toNat ++ rest) = parse lib (set n) rest := by
  rw [varintField]
  by_cases hn : n.toNat = 0
  · have hn0 : n = 0 := UInt32.toNat_inj.mp hn
    rw [if_pos hn, List.nil_append, hn0, hzero]
  · rw [if_neg hn, List.cons_append]
    apply parse_of_field (readTag_cons _ htag.1 htag.2)
    have hlt := n.toNat_lt
    rw [hf, parseUInt32, readVarint_varint rest (by omega)]
    simp only [UInt32.ofNat_toNat]

theorem parse_typeField {e : Entry} (t : EntryType) (rest : Bytes) (he : e.type = .NORMAL) :
    parse lib e (varintField 0x08 (typeNumber t) ++ rest) = parse lib { e with type := t } rest := by
  cases t with
  | NORMAL =>
    have hsame : { e with type := .NORMAL } = e := by
      rw [← he]
    rw [hsame]
    rfl
  | CFGADD => exact parse_of_field (readTag_cons _ (by decide) (by decide)) rfl
  | CFGREM => exact parse_of_field (readTag_cons _ (by decide) (by decide)) rfl

/-- The fields before the host are read back. -/
theorem parse_header {e : Entry} (hw : e.write_it = 0) (rest : Bytes) :
    parse lib new (e.header ++ rest) = parse lib { e with host := [] } rest := by
  have hfields : e.header ++ rest = varintField 0x08 (typeNumber e.type) ++
      (varintField 0x10 e.term.toNat ++ (varintField 0x18 e.nodeid.toNat ++
        (varintField 0x20 e.port.toNat ++ rest))) := by
    simp only [header, List.append_assoc]
  calc parse lib new (e.header ++ rest)
      = parse lib ⟨e.type, 0, 0, 0, [], 0⟩ (varintField 0x10 e.term.toNat ++
          (varintField 0x18 e.nodeid.toNat ++ (varintField 0x20 e.port.toNat ++ rest))) := by
        rw [hfields]
        exact parse_typeField _ _ rfl
    _ = parse lib ⟨e.type, e.term, 0, 0, [], 0⟩ (varintField 0x18 e.nodeid.toNat ++
          (varintField 0x20 e.port.toNat ++ rest)) :=
        parse_varintField (fun v => ⟨e.type, v, 0, 0, [], 0⟩) _ _ (by decide) (fun _ => rfl) rfl
    _ = parse lib ⟨e.type, e.term, e.nodeid, 0, [], 0⟩ (varintField 0x20 e.port.toNat ++ rest) :=
        parse_varintField (fun v => ⟨e.type, e.term, v, 0, [], 0⟩) _ _ (by decide)
          (fun _ => rfl) rfl
    _ = parse lib ⟨e.type, e.term, e.nodeid, e.port, [], 0⟩ rest :=
        parse_varintField (fun v => ⟨e.type, e.term, e.nodeid, v, [], 0⟩) _ _ (by decide)
          (fun _ => rfl) rfl
    _ = parse lib { e with host := [] } rest := by rw [hw]

/-- The field of a host whose announced length is `n`, with the bytes `bs` there. -/
theorem parse_hostField {e : Entry} {n : ℕ} (hn : n < 2 ^ 32) (bs : Bytes) :
    parse lib e (0x2A :: varint 9 n ++ bs) =
      if n ≤ bs.length then
        if lib.validUtf8 (bs.take n) then parse lib { e with host := bs.take n } (bs.drop n)
        else { e with host := bs.take n }
      else { e with host := lib.cutString bs e.host } := by
  have htag : readTag (0x2A :: varint 9 n ++ bs) = some (0x2A, varint 9 n ++ bs) :=
    readTag_cons _ (by decide) (by decide)
  have hfield : parseField lib e 0x2A (varint 9 n ++ bs) =
      if n ≤ bs.length then
        ({ e with host := bs.take n },
          if lib.validUtf8 (bs.take n) then some (bs.drop n) else none)
      else ({ e with host := lib.cutString bs e.host }, none) := by
    show parseHost lib e (varint 9 n ++ bs) = _
    rw [parseHost, readVarint_varint bs (by omega)]
    simp only [Nat.mod_eq_of_lt hn]
  by_cases hle : n ≤ bs.length
  · rw [if_pos hle] at hfield ⊢
    by_cases hutf : lib.validUtf8 (bs.take n)
    · rw [if_pos hutf] at hfield ⊢
      exact parse_of_field htag hfield
    · rw [if_neg hutf] at hfield ⊢
      exact parse_of_failure htag hfield
  · rw [if_neg hle] at hfield ⊢
    exact parse_of_failure htag hfield

/-- A written entry is read back, and what lies behind it is parsed on, unless the parse
stopped at a host that is not UTF-8. -/
theorem parse_serialize {e : Entry} (hw : e.write_it = 0) (hhost : e.host.length < 2 ^ 32)
    (tail : Bytes) :
    parse lib new (e.serialize ++ tail) =
      if e.host = [] ∨ lib.validUtf8 e.host then parse lib e tail else e := by
  rw [serialize_eq hw, List.append_assoc, parse_header hw, hostField]
  by_cases hnil : e.host = []
  · have hsame : { e with host := [] } = e := by
      rw [← hnil]
    rw [if_pos hnil, if_pos (Or.inl hnil), List.nil_append, hsame]
  · rw [if_neg hnil, List.append_assoc, parse_hostField hhost, if_pos (by
      rw [List.length_append]
      omega), List.take_left, List.drop_left]
    simp only [hnil, false_or]

/-! ## How long a host can get -/

theorem parseUInt32_host {old : UInt32} {set : UInt32 → Entry} {host : Bytes} (bs : Bytes)
    (h : ∀ v, (set v).host = host) : (parseUInt32 lib old set bs).1.host = host := by
  rw [parseUInt32]
  rcases readVarint 10 bs with _ | ⟨v, r⟩
  · exact h _
  · exact h _

theorem length_cutString_le (lib : Protobuf) (bs old : Bytes) :
    (lib.cutString bs old).length ≤ max old.length bs.length := by
  rcases lib.cutString_or bs old with h | h
  · rw [h]
    exact le_max_left _ _
  · exact le_trans h.length_le (le_max_right _ _)

theorem length_parseField_host (lib : Protobuf) (e : Entry) (tag : ℕ) (bs : Bytes) :
    (parseField lib e tag bs).1.host.length ≤ max e.host.length bs.length := by
  have hsame : ∀ e' : Entry, e'.host = e.host → e'.host.length ≤ max e.host.length bs.length := by
    intro e' he'
    rw [he']
    exact le_max_left _ _
  unfold parseField
  -- only the field of the host assigns it
  split
  · rw [parseType]
    split
    · exact hsame _ rfl
    · exact hsame _ rfl
  · exact hsame _ (parseUInt32_host bs fun _ => rfl)
  · exact hsame _ (parseUInt32_host bs fun _ => rfl)
  · exact hsame _ (parseUInt32_host bs fun _ => rfl)
  · rw [parseHost]
    rcases hv : readVarint 10 bs with _ | ⟨v, r⟩
    · exact hsame _ rfl
    · have hlt := length_readVarint hv
      simp only
      split_ifs with hle
      · show (r.take _).length ≤ _
        rw [List.length_take]
        omega
      · show (r.take _).length ≤ _
        rw [List.length_take]
        omega
      · have hcut := length_cutString_le lib r e.host
        show (lib.cutString r e.host).length ≤ _
        omega
  · exact hsame _ (parseUInt32_host bs fun _ => rfl)
  · exact hsame _ rfl

theorem length_parseFields_host (lib : Protobuf) (fuel : ℕ) (e : Entry) (bs : Bytes) :
    (parseFields lib fuel e bs).host.length ≤ max e.host.length bs.length := by
  induction fuel generalizing e bs with
  | zero => exact le_max_left _ _
  | succ fuel ih =>
    rw [parseFields]
    rcases ht : readTag bs with _ | ⟨tag, rest⟩
    · exact le_max_left _ _
    · have hlt := length_readTag ht
      have hfield := length_parseField_host lib e tag rest
      rcases hf : parseField lib e tag rest with ⟨e', _ | rest'⟩ <;> rw [hf] at hfield
      · simp only [hf]
        show e'.host.length ≤ _
        have hle : e'.host.length ≤ max e.host.length rest.length := hfield
        omega
      · have hle := length_parseField hf
        have hrest := ih e' rest'
        have hle' : e'.host.length ≤ max e.host.length rest.length := hfield
        simp only [hf]
        omega

/-- No host longer than 128 bytes is loaded. -/
theorem length_load_host (lib : Protobuf) (memory : ℕ → UInt8) (value : Bytes) :
    (load lib memory value).host.length ≤ 128 := by
  have hle := length_parseFields_host lib
    (((value ++ (List.range 128).map memory).take 128).length + 1) new
    ((value ++ (List.range 128).map memory).take 128)
  have htake : ((value ++ (List.range 128).map memory).take 128).length ≤ 128 := by
    rw [List.length_take]
    omega
  have hnew : new.host.length = 0 := rfl
  rw [load, parse]
  omega

/-! ## When an entry is read back -/

/-- The library leaves an integer field alone when the input ends after its tag. -/
def KeepsBroken (lib : Protobuf) (e : Entry) : Prop :=
  lib.brokenVarint [] e.term = e.term ∧ lib.brokenVarint [] e.nodeid = e.nodeid ∧
    lib.brokenVarint [] e.port = e.port ∧ lib.brokenVarint [] 0 = 0

/-- The host has no NUL, and the 128 bytes parsed end with the encoding, or the parse does
because the host is no UTF-8; a single byte behind the encoding is a tag without a value. -/
def Readable (lib : Protobuf) (e : Entry) : Prop :=
  0 ∉ e.host ∧ (e.serialize.length = 128 ∨
    (e.serialize.length < 128 ∧ e.host ≠ [] ∧ lib.validUtf8 e.host = false) ∨
    (e.serialize.length = 127 ∧ KeepsBroken lib e))

/-- A tag with nothing after it. -/
theorem parseField_nil {e : Entry} (hw : e.write_it = 0) (hkeep : KeepsBroken lib e) (tag : ℕ) :
    (parseField lib e tag []).1 = e := by
  obtain ⟨hterm, hnodeid, hport, hwrite⟩ := hkeep
  unfold parseField
  split
  · rfl
  · show { e with term := lib.brokenVarint [] e.term } = e
    rw [hterm]
  · show { e with nodeid := lib.brokenVarint [] e.nodeid } = e
    rw [hnodeid]
  · show { e with port := lib.brokenVarint [] e.port } = e
    rw [hport]
  · rfl
  · show { e with write_it := lib.brokenVarint [] e.write_it } = e
    rw [hw, hwrite, ← hw]
  · rfl

theorem parse_singleton {e : Entry} (hw : e.write_it = 0) (hkeep : KeepsBroken lib e) (b : UInt8) :
    parse lib e [b] = e := by
  rcases ht : readTag [b] with _ | ⟨tag, rest⟩
  · exact parse_of_readTag_eq_none ht
  · have hlt := length_readTag ht
    rw [List.length_singleton, Nat.lt_one_iff, List.length_eq_zero_iff] at hlt
    subst hlt
    have hfst := parseField_nil hw hkeep tag
    rcases hf : parseField lib e tag [] with ⟨e', _ | rest⟩ <;> rw [hf] at hfst
    · rw [parse_of_failure ht hf]
      exact hfst
    · have hle := length_parseField hf
      rw [List.length_nil, Nat.le_zero, List.length_eq_zero_iff] at hle
      rw [parse_of_field ht hf, hle]
      exact hfst

/-- Zero bytes end the parse. -/
theorem parse_replicate_zero (e : Entry) (n : ℕ) : parse lib e (List.replicate n 0) = e := by
  cases n with
  | zero => rfl
  | succ n => exact parse_of_readTag_eq_none rfl

/-- **What may lie behind an encoding**: nothing, or one byte. -/
theorem parse_tail_iff {e : Entry} (hw : e.write_it = 0) (n : ℕ) :
    (∀ tail : Bytes, tail.length = n → parse lib e tail = e) ↔
      n = 0 ∨ (n = 1 ∧ KeepsBroken lib e) := by
  constructor
  · intro h
    match n, h with
    | 0, _ => exact Or.inl rfl
    | 1, h =>
      -- each of the four tags, with nothing after it
      have hterm : { e with term := lib.brokenVarint [] e.term } = e := h [0x10] rfl
      have hnodeid : { e with nodeid := lib.brokenVarint [] e.nodeid } = e := h [0x18] rfl
      have hport : { e with port := lib.brokenVarint [] e.port } = e := h [0x20] rfl
      have hwrite : { e with write_it := lib.brokenVarint [] e.write_it } = e := h [0x30] rfl
      refine Or.inr ⟨rfl, congrArg Entry.term hterm, congrArg Entry.nodeid hnodeid,
        congrArg Entry.port hport, ?_⟩
      have hw' := congrArg Entry.write_it hwrite
      rw [hw] at hw'
      exact hw'
    | n + 2, h =>
      -- the field `write_it` with the value 1
      have hone := h (0x30 :: 1 :: List.replicate n 0) (by
        rw [List.length_cons, List.length_cons, List.length_replicate])
      have htag : readTag (0x30 :: 1 :: List.replicate n 0) = some (0x30, 1 :: List.replicate n 0) :=
        readTag_cons _ (by decide) (by decide)
      have hfield : parseField lib e 0x30 (1 :: List.replicate n 0) =
          ({ e with write_it := 1 }, some (List.replicate n 0)) := rfl
      rw [parse_of_field htag hfield, parse_replicate_zero] at hone
      have hw' : (1 : UInt32) = 0 := (congrArg Entry.write_it hone).trans hw
      exact absurd hw' (by decide)
  · rintro (rfl | ⟨rfl, hkeep⟩) tail htail
    · rw [List.length_eq_zero_iff.mp htail]
      rfl
    · obtain ⟨b, rfl⟩ := List.length_eq_one_iff.mp htail
      exact parse_singleton hw hkeep b

/-! ## Loading a written value -/

/-- Parsing 128 bytes of a value that starts with `bs`. -/
theorem load_append {bs : Bytes} (h : bs.length ≤ 128) (memory : ℕ → UInt8) (rest : Bytes) :
    load lib memory (bs ++ rest) =
      parse lib new (bs ++ (rest ++ (List.range 128).map memory).take (128 - bs.length)) := by
  rw [load, List.append_assoc, List.take_append, List.take_of_length_le h]

/-- `Slice(const char*)` on a buffer without a NUL goes on behind it. -/
theorem sliceOfCStr_of_notMem {bs : Bytes} (h : 0 ∉ bs) (after : Bytes) :
    sliceOfCStr bs after = bs ++ sliceOfCStr [] after := by
  rw [sliceOfCStr, List.takeWhile_append_of_pos, sliceOfCStr, List.nil_append]
  intro b hb
  exact decide_eq_true fun h0 => h (h0 ▸ hb)

theorem zero_notMem_serialize {e : Entry} (hw : e.write_it = 0) (h : 0 ∉ e.host)
    (hlen : e.host.length < 2 ^ 32) : 0 ∉ e.serialize := by
  rw [serialize_eq hw, hostField, List.mem_append, not_or]
  refine ⟨zero_notMem_header e, ?_⟩
  split_ifs with hnil
  · exact List.not_mem_nil
  · have hpos : 0 < e.host.length := List.length_pos_iff.mpr hnil
    rw [List.mem_append, List.mem_cons, not_or, not_or]
    exact ⟨⟨by decide, zero_notMem_varint hpos (by omega)⟩, h⟩

/-- A memory that starts with given bytes. -/
theorem take_map_getD {bs : Bytes} {n : ℕ} (h : bs.length ≤ n) :
    ((List.range n).map fun i => bs.getD i 0).take bs.length = bs := by
  apply List.ext_getElem
  · rw [List.length_take, List.length_map, List.length_range]
    omega
  · intro i _ hi
    rw [List.getElem_take, List.getElem_map, List.getElem_range, List.getD_eq_getElem?_getD,
      List.getElem?_eq_getElem hi, Option.getD_some]

/-- **The entries without a NUL whose encoding fits.** -/
theorem load_iff_of_length_le {e : Entry} (hw : e.write_it = 0) (h : 0 ∉ e.host)
    (hhost : e.host.length < 2 ^ 32) (hlen : e.serialize.length ≤ 128) :
    (∀ after memory, load lib memory (sliceOfCStr e.serialize after) = e) ↔ Readable lib e := by
  have hzero := zero_notMem_serialize hw h hhost
  -- behind the encoding anything may lie that fills up the 128 bytes
  have htail : (∀ after memory, load lib memory (sliceOfCStr e.serialize after) = e) ↔
      ∀ tail : Bytes, tail.length = 128 - e.serialize.length →
        parse lib new (e.serialize ++ tail) = e := by
    constructor
    · intro hall tail hl
      have hload := hall [] fun i => tail.getD i 0
      rw [sliceOfCStr_of_notMem hzero, load_append hlen, ← hl] at hload
      have hmem : ((List.range 128).map fun i => tail.getD i 0).take tail.length = tail :=
        take_map_getD (by omega)
      rw [← hmem]
      exact hload
    · intro hall after memory
      rw [sliceOfCStr_of_notMem hzero, load_append hlen]
      apply hall
      rw [List.length_take, List.length_append, List.length_map, List.length_range]
      omega
  rw [htail]
  simp only [parse_serialize hw hhost]
  by_cases hstop : e.host = [] ∨ lib.validUtf8 e.host = true
  · simp only [if_pos hstop]
    rw [parse_tail_iff hw, Readable]
    have hno : ¬ (e.host ≠ [] ∧ lib.validUtf8 e.host = false) := by
      rintro ⟨hnil, hutf⟩
      rcases hstop with hs | hs
      · exact hnil hs
      · rw [hutf] at hs
        exact absurd hs (by decide)
    constructor
    · rintro (hl | ⟨hl, hkeep⟩)
      · exact ⟨h, Or.inl (by omega)⟩
      · exact ⟨h, Or.inr (Or.inr ⟨by omega, hkeep⟩)⟩
    · rintro ⟨_, hl | ⟨_, hnil⟩ | ⟨hl, hkeep⟩⟩
      · exact Or.inl (by omega)
      · exact absurd hnil hno
      · exact Or.inr ⟨by omega, hkeep⟩
  · simp only [if_neg hstop, implies_true, true_iff]
    rw [not_or, Bool.not_eq_true] at hstop
    rcases Nat.lt_or_ge e.serialize.length 128 with hlt | hge
    · exact ⟨h, Or.inr (Or.inl ⟨hlt, hstop⟩)⟩
    · exact ⟨h, Or.inl (by omega)⟩

/-- A host that is longer than the bytes left for it is not read back. -/
theorem parse_cut_ne {e : Entry} (hw : e.write_it = 0) (hhost : e.host.length < 2 ^ 32)
    {bs : Bytes} (h : bs.length < e.host.length) :
    parse lib new (e.header ++ (0x2A :: varint 9 e.host.length ++ bs)) ≠ e := by
  intro heq
  rw [parse_header hw, parse_hostField hhost, if_neg (by omega)] at heq
  have hlen := length_cutString_le lib bs []
  have hcut : lib.cutString bs [] = e.host := congrArg Entry.host heq
  rw [hcut, List.length_nil] at hlen
  omega

/-- The fields up to the host's bytes. -/
def hostHeader (e : Entry) : Bytes := e.header ++ 0x2A :: varint 9 e.host.length

theorem serialize_eq_hostHeader {e : Entry} (hw : e.write_it = 0) (hnil : e.host ≠ []) :
    e.serialize = e.hostHeader ++ e.host := by
  rw [serialize_eq hw, hostField, if_neg hnil, hostHeader, List.append_assoc]

theorem length_hostHeader_le {e : Entry} (hhost : e.host.length ≤ 128) :
    e.hostHeader.length ≤ 27 := by
  have h1 := e.length_header_le
  have h2 : (varint 9 e.host.length).length ≤ 1 + 1 := length_varint_le (by omega) (by omega)
  rw [hostHeader, List.length_append, List.length_cons]
  omega

theorem zero_notMem_hostHeader {e : Entry} (hhost : e.host.length ≤ 128) (hnil : e.host ≠ []) :
    0 ∉ e.hostHeader := by
  have hpos : 0 < e.host.length := List.length_pos_iff.mpr hnil
  rw [hostHeader, List.mem_append, List.mem_cons, not_or, not_or]
  exact ⟨e.zero_notMem_header, by decide, zero_notMem_varint hpos (by omega)⟩

/-- An encoding of more than 128 bytes is not read back. -/
theorem load_ne_of_length_lt {e : Entry} (hw : e.write_it = 0) (h : 0 ∉ e.host)
    (hhost : e.host.length ≤ 128) (hlen : 128 < e.serialize.length) (memory : ℕ → UInt8) :
    load lib memory (sliceOfCStr e.serialize []) ≠ e := by
  have hnil : e.host ≠ [] := by
    intro hnil
    have hle := e.length_header_le
    rw [serialize_eq hw, hnil, hostField, if_pos rfl, List.append_nil] at hlen
    omega
  have hle := length_hostHeader_le hhost
  have hslice : sliceOfCStr e.serialize [] = e.hostHeader ++ e.host := by
    rw [sliceOfCStr_of_notMem (zero_notMem_serialize hw h (by omega)),
      serialize_eq_hostHeader hw hnil]
    exact List.append_nil _
  rw [serialize_eq_hostHeader hw hnil, List.length_append] at hlen
  rw [hslice, load_append (by omega), hostHeader, List.append_assoc]
  apply parse_cut_ne hw (by omega)
  rw [List.length_take, ← hostHeader]
  omega

/-- Only zeros are left of `bs`, a one and zeros after the first bytes up to the one. -/
theorem drop_take_one_zeros {bs : Bytes} {n k : ℕ} (h : bs.length < n) :
    ∃ j, ((bs ++ 1 :: List.replicate 127 0).take k).drop n = List.replicate j 0 := by
  refine ⟨_, List.eq_replicate_of_mem fun b hb => ?_⟩
  have hsplit : bs ++ (1 : UInt8) :: List.replicate 127 0 = (bs ++ [1]) ++ List.replicate 127 0 := by
    rw [List.append_assoc]
    rfl
  rw [List.drop_take, hsplit, List.drop_append, List.drop_eq_nil_of_le (by
    rw [List.length_append, List.length_singleton]
    omega), List.nil_append] at hb
  exact List.eq_of_mem_replicate (List.mem_of_mem_drop (List.mem_of_mem_take hb))

/-- A value cut at a NUL is not read back if a one and zeros lie behind it. -/
theorem load_ne_of_zero_mem {e : Entry} (hw : e.write_it = 0) (h : 0 ∈ e.host)
    (hhost : e.host.length ≤ 128) :
    load lib (fun i => if i = 0 then 1 else 0) (sliceOfCStr e.serialize []) ≠ e := by
  have hnil : e.host ≠ [] := List.ne_nil_of_mem h
  have hle := length_hostHeader_le hhost
  obtain ⟨bs, cs, hsplit, hbs⟩ := List.eq_append_cons_of_mem h
  have hlen : bs.length < e.host.length := by
    rw [hsplit, List.length_append, List.length_cons]
    omega
  have hslice : sliceOfCStr e.serialize [] = e.hostHeader ++ bs := by
    have hcut : e.hostHeader ++ (bs ++ 0 :: cs) = (e.hostHeader ++ bs) ++ 0 :: cs :=
      (List.append_assoc _ _ _).symm
    rw [serialize_eq_hostHeader hw hnil, hsplit, sliceOfCStr, List.append_nil, hcut,
      List.takeWhile_append_of_pos]
    · rw [List.takeWhile_cons_of_neg (by decide), List.append_nil]
    · intro b hb
      refine decide_eq_true fun h0 => ?_
      rcases List.mem_append.mp (h0 ▸ hb) with hb | hb
      · exact zero_notMem_hostHeader hhost hnil hb
      · exact hbs hb
  have hmem : (List.range 128).map (fun i => if i = 0 then (1 : UInt8) else 0) =
      1 :: List.replicate 127 0 := by decide
  rw [hslice, load_append (by omega), hmem, hostHeader, List.append_assoc]
  generalize hk : 128 - (e.header ++ 0x2A :: varint 9 e.host.length).length = k
  rcases Nat.lt_or_ge ((bs ++ 1 :: List.replicate 127 0).take k).length e.host.length with hlt | hge
  · exact parse_cut_ne hw (by omega) hlt
  · -- the host is read with the one in the place of its NUL, and the zeros end the parse
    obtain ⟨j, hzeros⟩ := drop_take_one_zeros (k := k) hlen
    have hread : parse lib new (e.header ++
        (0x2A :: varint 9 e.host.length ++ (bs ++ 1 :: List.replicate 127 0).take k)) =
        { e with host := ((bs ++ 1 :: List.replicate 127 0).take k).take e.host.length } := by
      rw [parse_header hw, parse_hostField (by omega), if_pos hge, hzeros, parse_replicate_zero,
        ite_self]
    intro heq
    rw [hread] at heq
    have hhost' : ((bs ++ 1 :: List.replicate 127 0).take k).take e.host.length = e.host :=
      congrArg Entry.host heq
    have hone := congrArg (fun l : Bytes => l[bs.length]?) hhost'
    rw [List.length_take] at hge
    simp only [List.getElem?_take, if_pos hlen, if_pos (show bs.length < k by omega)] at hone
    rw [hsplit, List.getElem?_append_right (le_refl _), List.getElem?_append_right (le_refl _),
      Nat.sub_self, List.getElem?_cons_zero, List.getElem?_cons_zero] at hone
    exact absurd hone (by decide)

/-- **Which written values are read back**, for an entry as `AppendCfgLog` builds it. -/
theorem forall_load_iff {e : Entry} (hw : e.write_it = 0) :
    (∀ after memory, load lib memory (sliceOfCStr e.serialize after) = e) ↔ Readable lib e := by
  by_cases hhost : e.host.length ≤ 128
  · by_cases hzero : 0 ∈ e.host
    · exact iff_of_false (fun hall => load_ne_of_zero_mem hw hzero hhost (hall [] _))
        fun hread => hread.1 hzero
    · rcases Nat.lt_or_ge 128 e.serialize.length with hlen | hlen
      · refine iff_of_false
          (fun hall => load_ne_of_length_lt hw hzero hhost hlen (fun _ => 0) (hall [] _)) ?_
        rintro ⟨_, hl | ⟨hl, _⟩ | ⟨hl, _⟩⟩ <;> omega
      · exact load_iff_of_length_le hw hzero (by omega) hlen
  · -- the encoding is longer than its host
    refine iff_of_false (fun hall => ?_) ?_
    · have hle := length_load_host lib (fun _ => 0) (sliceOfCStr e.serialize [])
      rw [hall] at hle
      exact hhost hle
    · have hnil : e.host ≠ [] := by
        intro hnil
        rw [hnil] at hhost
        exact hhost (Nat.zero_le _)
      have hlong : e.host.length ≤ e.serialize.length := by
        rw [serialize_eq_hostHeader hw hnil, List.length_append]
        omega
      rintro ⟨_, hl | ⟨hl, _⟩ | ⟨hl, _⟩⟩ <;> omega

end Entry

namespace RaftServer

/-- Whatever lies behind the buffer at the `Put` and behind the value when it is read, the
value stored under the new index is loaded as the entry pushed. -/
def LoadUndoesAppend (lib : Protobuf) (s : RaftServer) (strHost : Bytes)
    (iRaftPort iNodeID : Int32) : Prop :=
  ∀ put memory, put.ok = true →
    let t := s.appendCfgLog put strHost iRaftPort iNodeID
    let dwIndex := UInt32.ofNat s.entries.length
    ∃ value, t.entriesDB.find? (indexKey dwIndex) = some (dwIndex, value) ∧
      t.entries.getLast? = some (Entry.load lib memory value)

variable {lib : Protobuf} {s : RaftServer} {strHost : Bytes} {iRaftPort iNodeID : Int32}

/-- The value is the slice of the serialized entry. -/
theorem loadUndoesAppend_iff :
    LoadUndoesAppend lib s strHost iRaftPort iNodeID ↔
      ∀ after memory, Entry.load lib memory
        (sliceOfCStr (s.cfgEntry strHost iRaftPort iNodeID).serialize after) =
          s.cfgEntry strHost iRaftPort iNodeID := by
  constructor
  · intro hall after memory
    obtain ⟨value, hfind, hlast⟩ := hall ⟨true, after⟩ memory rfl
    rw [appendCfgLog_of_ok rfl] at hfind hlast
    simp only [EntriesDB.put, OrdMap.find?_insert, if_true, Option.some.injEq, Prod.mk.injEq,
      true_and] at hfind
    simp only [List.getLast?_append, List.getLast?_singleton, Option.some_or,
      Option.some.injEq] at hlast
    rw [hfind, ← hlast]
  · intro hall put memory hok
    dsimp only
    rw [appendCfgLog_of_ok hok]
    refine ⟨sliceOfCStr (s.cfgEntry strHost iRaftPort iNodeID).serialize put.after, ?_, ?_⟩
    · simp only [EntriesDB.put, OrdMap.find?_insert, if_true]
    · rw [hall]
      simp only [List.getLast?_append, List.getLast?_singleton, Option.some_or]

/-- **Loading undoes appending** exactly for the entries that can be read back: neither the
length the writer uses nor the one the reader uses is the length of the encoding. -/
theorem load_undoes_append (lib : Protobuf) (s : RaftServer) (strHost : Bytes)
    (iRaftPort iNodeID : Int32) :
    LoadUndoesAppend lib s strHost iRaftPort iNodeID ↔
      Entry.Readable lib (s.cfgEntry strHost iRaftPort iNodeID) := by
  rw [loadUndoesAppend_iff]
  exact Entry.forall_load_iff rfl

/-- The library on ASCII hosts; a broken varint reads as all ones, and a cut string keeps
what there is. -/
def asciiProtobuf : Protobuf where
  brokenVarint _ _ := 0xFFFFFFFF
  cutString bs _ := bs
  cutString_or bs _ := Or.inr (List.prefix_refl bs)
  validUtf8 bs := bs.all fun b => b < 128
  skipField _ _ := none

/-- With `30 01` behind the value, the entry loaded has `write_it = 1`. -/
theorem load_reads_behind :
    ¬ LoadUndoesAppend asciiProtobuf (new ⟨none, .empty⟩) [49, 48, 46, 48, 46, 48, 46, 50] 7777 1 := by
  rw [loadUndoesAppend_iff]
  intro hall
  have hload := hall [0] fun i => if i = 0 then 0x30 else if i = 1 then 1 else 0
  exact absurd hload (by decide +kernel)

end RaftServer
end NanoRaft
