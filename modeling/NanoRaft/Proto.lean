import NanoRaft.Lib.UInt
import NanoRaft.Lib.OrdMap

/-!
# Messages and stored values

The messages of `protocol/proto/api.proto`, the proto3 encoding of a log entry, and the
entries table as leveldb keeps it: ordered by `IndexComparator`, which reads a key as a
signed decimal number.
-/

namespace NanoRaft

/-- A C++ `std::string` or a memory buffer. -/
abbrev Bytes := List UInt8

/-! ## `api.proto` -/

/-- `entry.entrytype`. -/
inductive EntryType where
  | NORMAL
  | CFGADD
  | CFGREM
  deriving DecidableEq, Repr

/-- `entry`: one element of the replicated log. -/
structure Entry where
  type : EntryType
  term : UInt32
  nodeid : UInt32
  port : UInt32
  host : Bytes
  write_it : UInt32
  deriving DecidableEq, Repr

/-- `handshake_q`, sent once by a joining node. The unused `httpport` is left out. -/
structure HandshakeQ where
  raftport : UInt32
  nodeid : UInt32
  deriving DecidableEq, Repr

/-- `handshake_r`; nothing fills in the leader's host and port. -/
structure HandshakeR where
  result : Bool
  deriving DecidableEq, Repr

/-- `appendentries_q`. -/
structure AppendEntriesQ where
  term : UInt32
  prelogindex : UInt32
  prelogterm : UInt32
  leadercommit : UInt32
  entries : List Entry
  deriving DecidableEq, Repr

/-- `appendentries_r`. -/
structure AppendEntriesR where
  term : UInt32
  success : Bool
  isheartbeat : Bool
  deriving DecidableEq, Repr

/-- The messages with a working handler, by message id. -/
inductive Message where
  /-- 257 -/
  | handshake_q (q : HandshakeQ)
  /-- 258 -/
  | handshake_r (r : HandshakeR)
  /-- 259 -/
  | appendentries_q (q : AppendEntriesQ)
  /-- 260 -/
  | appendentries_r (r : AppendEntriesR)
  deriving DecidableEq, Repr

namespace Entry

/-- The entry types that `AppendEntriesQ` hands to `AppendCfgLog`. -/
def IsCfg (e : Entry) : Prop := e.type = .CFGADD ∨ e.type = .CFGREM

instance (e : Entry) : Decidable e.IsCfg := inferInstanceAs (Decidable (_ ∨ _))

/-! ## The proto3 encoding of an entry -/

/-- Base-128 varint; ten bytes hold every 64-bit value. -/
def varint : (fuel : ℕ) → ℕ → Bytes
  | 0, n => [n.toUInt8]
  | fuel + 1, n =>
    if n < 128 then [n.toUInt8] else (n % 128 + 128).toUInt8 :: varint fuel (n / 128)

/-- A `uint32` or enum field: left out when it has the default value. -/
def varintField (tag : UInt8) (n : ℕ) : Bytes := if n = 0 then [] else tag :: varint 9 n

def typeNumber : EntryType → ℕ
  | .NORMAL => 0
  | .CFGADD => 1
  | .CFGREM => 2

/-- `entry::SerializeToArray`. -/
def serialize (e : Entry) : Bytes :=
  varintField 0x08 (typeNumber e.type)
    ++ varintField 0x10 e.term.toNat
    ++ varintField 0x18 e.nodeid.toNat
    ++ varintField 0x20 e.port.toNat
    ++ (if e.host = [] then [] else 0x2A :: varint 9 e.host.length ++ e.host)
    ++ varintField 0x30 e.write_it.toNat

end Entry

/-! ## The entries table -/

/-- `Slice(const char*)`: the bytes up to the first NUL, which is looked for past the end
of the buffer, in the bytes `after` it, when the buffer has none. -/
def sliceOfCStr (buffer after : Bytes) : Bytes := (buffer ++ after).takeWhile (· ≠ 0)

/-- What `IndexComparator` reads a key as: `is >> int` of the decimal digits of a 32-bit
index, which yields `INT_MAX` on overflow. -/
def indexKey (dwIndex : UInt32) : ℕ := min dwIndex.toNat (2 ^ 31 - 1)

/-- The entries DB. A key that compares equal to a stored one takes its place, so the
table is ordered by what the comparator reads; the written index is kept with the value. -/
abbrev EntriesDB := OrdMap ℕ (UInt32 × Bytes)

/-- `Put(key, value)` with the decimal text of `dwIndex` as key. -/
def EntriesDB.put (db : EntriesDB) (dwIndex : UInt32) (value : Bytes) : EntriesDB :=
  db.insert (indexKey dwIndex) (dwIndex, value)

end NanoRaft
