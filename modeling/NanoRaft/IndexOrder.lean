import NanoRaft.Lib.Decimal
import NanoRaft.DurableLog

/-!
# The order of the entries DB

`IndexComparator` of `nanoraft/RaftServer.cpp` on the keys that `AppendCfgLog` writes. It
extracts an `int` from each of the two texts, where an index is a `uint32_t`.

* `compare_toString`: what it makes of two indices is the order of the slots of `EntriesDB`;
* `orders_as_iff`: for which indices that is the order of the indices;
* `put_keeps_iff`: which entries a `Put` under another index overwrites.
-/

namespace NanoRaft

/-- `std::to_string(uint32_t)`. -/
def toString32 (dwIndex : UInt32) : Bytes := Decimal.text dwIndex.toNat

namespace IndexComparator

/-- `is >> iIndex` into an `int`. -/
def extractInt (s : Bytes) : ℤ := Decimal.extract 32 s

/-- `IndexComparator::Compare`. -/
def compare (a b : Bytes) : ℤ :=
  let iIndex1 := extractInt a
  let iIndex2 := extractInt b
  if iIndex1 < iIndex2 then -1
  else if iIndex2 < iIndex1 then 1
  else 0

/-- The answer to two keys is the order of their indices. -/
structure OrdersAs (i j : UInt32) : Prop where
  lt : compare (toString32 i) (toString32 j) < 0 ↔ i < j
  eq : compare (toString32 i) (toString32 j) = 0 ↔ i = j
  gt : 0 < compare (toString32 i) (toString32 j) ↔ j < i

variable {i j k : UInt32}

/-- The text of an index is read as the slot of its entry in the table. -/
theorem extractInt_toString (i : UInt32) : extractInt (toString32 i) = indexKey i := by
  rw [extractInt, toString32, Decimal.extract_text, indexKey]
  push_cast
  norm_num

/-- **The order of the table.** Two keys are compared as their slots. -/
theorem compare_toString (i j : UInt32) : compare (toString32 i) (toString32 j) =
    if indexKey i < indexKey j then -1 else if indexKey j < indexKey i then 1 else 0 := by
  simp only [compare, extractInt_toString, Nat.cast_lt]

theorem compare_neg_iff : compare (toString32 i) (toString32 j) < 0 ↔ indexKey i < indexKey j := by
  rw [compare_toString]
  split_ifs <;> omega

theorem compare_pos_iff : 0 < compare (toString32 i) (toString32 j) ↔ indexKey j < indexKey i := by
  rw [compare_toString]
  split_ifs <;> omega

/-- Two keys are the same to the table if their slots are. -/
theorem compare_eq_zero_iff :
    compare (toString32 i) (toString32 j) = 0 ↔ indexKey i = indexKey j := by
  rw [compare_toString]
  split_ifs with hlt hgt
  · exact iff_of_false id (ne_of_lt hlt)
  · exact iff_of_false (by decide) (ne_of_gt hgt)
  · exact iff_of_true rfl (by omega)

/-- A slot tells its index from another one if either is below the largest `int`. -/
theorem indexKey_inj_iff :
    (indexKey i = indexKey j ↔ i = j) ↔ i = j ∨ i.toNat < 2 ^ 31 - 1 ∨ j.toNat < 2 ^ 31 - 1 := by
  rw [← UInt32.toNat_inj, indexKey, indexKey]
  omega

theorem indexKey_lt_iff (h : indexKey i = indexKey j ↔ i = j) :
    indexKey i < indexKey j ↔ i < j := by
  rw [indexKey_inj_iff, ← UInt32.toNat_inj] at h
  rw [UInt32.lt_iff_toNat_lt, indexKey, indexKey]
  omega

/-- **Ordered by index.** The comparator orders the keys of two indices as the indices, unless
they are different and neither is below the largest `int`. -/
theorem orders_as_iff :
    OrdersAs i j ↔ i = j ∨ i.toNat < 2 ^ 31 - 1 ∨ j.toNat < 2 ^ 31 - 1 := by
  rw [← indexKey_inj_iff]
  constructor
  · intro h
    exact compare_eq_zero_iff.symm.trans h.eq
  · intro h
    have hsymm : indexKey j = indexKey i ↔ j = i := by
      rw [eq_comm, h, eq_comm]
    exact ⟨compare_neg_iff.trans (indexKey_lt_iff h), compare_eq_zero_iff.trans h,
      compare_pos_iff.trans (indexKey_lt_iff hsymm)⟩

/-- The first two indices that are read as the largest `int`. -/
theorem identifies_two : ¬ ∀ i j : UInt32, OrdersAs i j := by
  intro hall
  have hzero : compare (toString32 0x7FFFFFFF) (toString32 0x80000000) = 0 :=
    compare_eq_zero_iff.mpr (by decide)
  exact absurd ((hall 0x7FFFFFFF 0x80000000).eq.mp hzero) (by decide)

/-- A `Put` under another index leaves an entry where it is exactly if the comparator tells the
two keys apart. -/
theorem put_keeps_iff (db : EntriesDB) (v w : Bytes) (hne : i ≠ j) :
    ((db.put i v).put j w).find? (indexKey i) = some (i, v) ↔
      compare (toString32 i) (toString32 j) ≠ 0 := by
  rw [EntriesDB.put, EntriesDB.put, OrdMap.find?_insert, OrdMap.find?_insert, if_pos rfl,
    Ne, compare_eq_zero_iff]
  split_ifs with heq
  · refine iff_of_false (fun h => ?_) (fun h => h heq)
    exact hne (Prod.mk.inj (Option.some.inj h)).1.symm
  · exact iff_of_true rfl heq

end IndexComparator

/-- `LoadEntries` visits the entries in the order of their indices. -/
theorem EntriesDB.keys_sorted {db : EntriesDB} (h : db.Keyed) : db.keys.Pairwise (· < ·) := by
  have hslots := List.pairwise_map.mp db.sorted
  rw [keys, List.pairwise_map]
  refine hslots.imp_of_mem fun {p q} hp hq hlt => ?_
  rw [h p hp, h q hq, indexKey, indexKey] at hlt
  rw [UInt32.lt_iff_toNat_lt]
  omega

end NanoRaft
