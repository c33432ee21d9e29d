import NanoRaft.DurableLog

/-!
# Deleting a suffix of the log

`DelLogsFromIndex` on a log and an entries DB that mirror each other. The guard and the pops
are those of the deprecated log.

* `deletes_suffix_iff`: for which logs and indices it deletes what it is to delete.
-/

namespace NanoRaft
namespace RaftServer

variable {s : RaftServer} {dwIndex : UInt32}

/-- The entries below the index are left, in memory and in the DB, and nothing is touched where
these are all. -/
structure DeletesSuffix (s : RaftServer) (dwIndex : UInt32) : Prop where
  entries : (s.delLogsFromIndex dwIndex).entries = s.entries.take dwIndex.toNat
  entriesDB : (s.delLogsFromIndex dwIndex).entriesDB.toList =
    s.entriesDB.toList.filter fun kv => kv.2.1 < dwIndex
  same : s.entries.length ≤ dwIndex.toNat → s.delLogsFromIndex dwIndex = s

/-- The entries in memory are never deleted, so nothing may have to be. -/
theorem deletesSuffix_iff_eq_self
    (hkeys : s.entriesDB.keys.map UInt32.toNat = List.range s.entries.length) :
    s.DeletesSuffix dwIndex ↔
      s.entries.length ≤ dwIndex.toNat ∧ s.delLogsFromIndex dwIndex = s := by
  constructor
  · intro h
    obtain ⟨db, logs, hs⟩ := delLogsFromIndex_frame s dwIndex
    have htake : s.entries = s.entries.take dwIndex.toNat := by
      rw [← h.entries, hs]
    have hle : s.entries.length ≤ dwIndex.toNat := by
      rw [htake, List.length_take]
      exact min_le_left _ _
    exact ⟨hle, h.same hle⟩
  · rintro ⟨hle, hself⟩
    refine ⟨?_, ?_, fun _ => hself⟩
    · rw [hself, List.take_of_length_le hle]
    · rw [hself, eq_comm, List.filter_eq_self]
      intro kv hkv
      -- every key is below the length of the log
      have hmem : kv.2.1.toNat ∈ s.entriesDB.keys.map UInt32.toNat :=
        List.mem_map_of_mem (List.mem_map_of_mem hkv)
      rw [hkeys, List.mem_range] at hmem
      rw [decide_eq_true_iff, UInt32.lt_iff_toNat_lt]
      omega

/-- **Deleting a suffix.** It works exactly if there is no suffix to delete, and the iterator
does not find the key of the last entry there can be, at which every larger index is read. -/
theorem deletes_suffix_iff (hkeyed : s.entriesDB.Keyed)
    (hkeys : s.entriesDB.keys.map UInt32.toNat = List.range s.entries.length) :
    s.DeletesSuffix dwIndex ↔ s.entries.length ≤ dwIndex.toNat ∧
      (s.logs.length < (dwIndex + 1).toNat ∨ s.entries.length < 2 ^ 31) := by
  have hmax := EntriesDB.le_of_keys hkeyed hkeys
  rw [deletesSuffix_iff_eq_self hkeys, delLogsFromIndex_eq_self_iff,
    EntriesDB.seek_eq_nil_iff hkeyed hkeys]
  refine and_congr_right fun hle => or_congr_right ?_
  rw [indexKey]
  omega

/-- A server whose log and table hold the entries of nodes 1 to `n`. -/
def filled (n : ℕ) : RaftServer :=
  (List.range n).foldl (fun s i => s.appendCfgLog ⟨true, []⟩ startHost 7777 (Int32.ofNat (i + 1)))
    (RaftServer.new ⟨none, .empty⟩)

theorem keyed_filled (n : ℕ) : (filled n).entriesDB.Keyed := by
  induction n with
  | zero => exact fun kv hkv => absurd hkv List.not_mem_nil
  | succ n ih =>
    rw [filled, List.range_succ, List.foldl_append, List.foldl_cons, List.foldl_nil]
    exact EntriesDB.keyed_put ih _ _

theorem deletes_suffix_behind : (filled 2).DeletesSuffix 2 := by
  rw [deletes_suffix_iff (keyed_filled 2) (by decide +kernel)]
  decide +kernel

/-- One entry, to be deleted from index 0 on. -/
theorem leaves_suffix : ¬ ∀ (s : RaftServer) (dwIndex : UInt32), s.entriesDB.Keyed →
    s.entriesDB.keys.map UInt32.toNat = List.range s.entries.length →
    s.DeletesSuffix dwIndex := by
  intro hall
  have hone := (hall (filled 1) 0 (keyed_filled 1) (by decide +kernel)).entries
  exact absurd (congrArg List.length hone) (by decide +kernel)

end RaftServer
end NanoRaft
