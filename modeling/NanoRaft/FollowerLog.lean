import NanoRaft.Lib.Log
import NanoRaft.ModApiTheorems

/-!
# One AppendEntries on one node

What a single call of `AppendEntriesQ` does to the log of the node that receives it, for
every node state and every message:

* a rejected message changes nothing but term and role, unless its commit index moves the
  node's or a candidate gives up its election (`rejected_atomic_iff`);
* an accepted one, delivered again, appends its configuration changes a second time
  (`redelivery_iff`);
* a conflicting suffix is never cut off (`truncates_iff`), because the scan looks into the
  deprecated log;
* the entries are rebuilt, not copied (`copied_iff`).
-/

namespace NanoRaft
namespace RaftServer

variable {puts puts' : Puts} {s s' s1 : RaftServer} {q : AppendEntriesQ} {r r1 : AppendEntriesR}

/-- The server a process starts with on empty directories. -/
def fresh : RaftServer := .new ⟨none, .empty⟩

/-- A `CFGADD` entry for node `nodeid`, as a leader in term `term` creates it. -/
def cfgadd (term nodeid : UInt32) : Entry := ⟨.CFGADD, term, nodeid, 7777, startHost, 0⟩

/-- A node whose entry 1 is of an older term than its own. -/
def divergent : RaftServer :=
  { fresh with currentTerm := 1, entries := [cfgadd 0 1, cfgadd 0 2] }

/-! ## A rejected message -/

/-- The all-or-nothing reading of a rejection: log, entries DB and commit index are kept, and
nothing else changes but the term, with its persisted copy, and the role; and these change for
a message of a higher term only. -/
structure RejectedAtomically (s : RaftServer) (q : AppendEntriesQ) (s' : RaftServer) : Prop where
  entries : s'.entries = s.entries
  entriesDB : s'.entriesDB = s.entriesDB
  commitIndex : s'.commitIndex = s.commitIndex
  frame : s' = { s with currentTerm := s'.currentTerm, role := s'.role, stateDB := s'.stateDB }
  higher : s'.currentTerm ≠ s.currentTerm ∨ s'.role ≠ s.role ∨ s'.stateDB ≠ s.stateDB →
    s.currentTerm < q.term

/-- Where the tail leaves the commit index as it is. -/
theorem followIndex_eq_self_iff : s.followIndex q = s.commitIndex ↔
    q.leadercommit ≤ s.commitIndex ∨
      min q.leadercommit (q.prelogindex + UInt32.ofNat q.entries.length) = s.commitIndex := by
  unfold followIndex
  by_cases hlt : s.commitIndex < q.leadercommit
  · rw [if_pos hlt, or_iff_right (not_le.mpr hlt)]
  · rw [if_neg hlt]
    exact iff_of_true rfl (Or.inl (not_lt.mp hlt))

/-- What a rejection leaves: the term check has stopped the message or let it pass, and the
tail has run. -/
theorem rejected_eq (h : s.appendEntriesQ puts q = .ok (s', r)) (hr : r.success = false) :
    (q.term < s.currentTerm ∧ s' = { s with commitIndex := s.followIndex q }) ∨
    (s.currentTerm ≤ q.term ∧ s' = { s.adoptTerm q with commitIndex := s.followIndex q }) := by
  have hcommit := appendEntriesQ_commitIndex h
  rcases appendEntriesQ_rejected h hr with ⟨hlt, hs'⟩ | ⟨hle, hs'⟩
  · refine Or.inl ⟨hlt, ?_⟩
    rw [← hcommit, hs']
    exact followCommit_frame s q
  · refine Or.inr ⟨hle, ?_⟩
    rw [← hcommit, hs']
    exact followCommit_frame _ q

/-- **Rejected as a whole.** A rejection is all or nothing exactly when the shared tail leaves
the commit index as it is, and no candidate gives up an election on a message of its own
term. -/
theorem rejected_atomic_iff (h : s.appendEntriesQ puts q = .ok (s', r)) (hr : r.success = false) :
    s.RejectedAtomically q s' ↔
      (q.leadercommit ≤ s.commitIndex ∨
        min q.leadercommit (q.prelogindex + UInt32.ofNat q.entries.length) = s.commitIndex) ∧
      ¬ (s.role = .Candidate ∧ s.currentTerm = q.term) := by
  rw [← followIndex_eq_self_iff]
  constructor
  · intro hatomic
    refine ⟨(appendEntriesQ_commitIndex h).symm.trans hatomic.commitIndex, ?_⟩
    rintro ⟨hcand, hterm⟩
    -- the candidate has become a follower, with no higher term
    have hrole : s'.role = .Follower := by
      rw [appendEntriesQ_role h, if_neg (not_lt.mpr hterm.le)]
      exact if_pos (Or.inr hcand)
    have hchanged : s'.role ≠ s.role := by
      rw [hrole, hcand]
      decide
    exact absurd (hatomic.higher (Or.inr (Or.inl hchanged))) (not_lt.mpr hterm.ge)
  · rintro ⟨hcommit, hcand⟩
    rcases rejected_eq h hr with ⟨_, hs'⟩ | ⟨hle, hs'⟩
    · rw [hcommit] at hs'
      obtain rfl : s' = s := hs'
      exact ⟨rfl, rfl, rfl, rfl, fun hne => absurd hne (by simp)⟩
    · -- the term check has let the message pass before the consistency check rejected it
      rw [hcommit] at hs'
      refine ⟨by rw [hs']; rfl, by rw [hs']; rfl, by rw [hs'], by rw [hs']; rfl, fun hne => ?_⟩
      by_contra hlow
      have hterm : s.currentTerm = q.term := le_antisymm hle (not_lt.mp hlow)
      rw [hs', adoptTerm_eq_self hterm.symm fun hc => hcand ⟨hc, hterm⟩] at hne
      simp at hne

/-- An empty node that rejects a message of another log follows its commit index all the
same. -/
theorem rejected_not_atomic :
    ¬ ∀ puts s q s' r, appendEntriesQ puts s q = .ok (s', r) → r.success = false →
      RejectedAtomically s q s' := by
  intro hall
  have hatomic := hall .allOk fresh ⟨0, 1, 0, 1, []⟩ _ _ rfl rfl
  exact absurd hatomic.commitIndex (by decide)

/-- A message of a higher term whose previous entry is of another term than the node's. -/
theorem rejected_atomic_mismatch : ∃ s' r,
    divergent.appendEntriesQ .allOk ⟨2, 1, 1, 0, [cfgadd 2 3]⟩ = .ok (s', r) ∧
    r.success = false ∧ s'.currentTerm = 2 ∧
    divergent.RejectedAtomically ⟨2, 1, 1, 0, [cfgadd 2 3]⟩ s' :=
  ⟨_, _, rfl, rfl, rfl, (@rejected_atomic_iff .allOk divergent _ ⟨2, 1, 1, 0, [cfgadd 2 3]⟩ _
    rfl rfl).mpr (by decide)⟩

/-! ## Accepted messages

`m_stLogs_` is filled by `AppendLog` only, which nothing calls, so on every node it has
nothing at any index; the results that need this of the message's first index say so. -/

/-- The append loop pushes nothing exactly when every configuration change of the message
meets a refused `Put`. -/
theorem stored_eq_nil {put : ℕ → PutResult} {term : UInt32} {es : List Entry} :
    stored put term es = [] ↔
      ∀ i e, es[i]? = some e → e.IsCfg → (put i).ok = false := by
  induction es generalizing put with
  | nil => simp [stored]
  | cons e es ih =>
    rw [stored, List.append_eq_nil_iff, ih]
    constructor
    · rintro ⟨hhead, htail⟩ i x hx hcfg
      cases i with
      | zero =>
        obtain rfl : e = x := by simpa using hx
        by_contra hne
        simp [hcfg, hne] at hhead
      | succ i => exact htail i x (by simpa using hx) hcfg
    · intro hall
      refine ⟨?_, fun i x hx hcfg => hall (i + 1) x (by simpa using hx) hcfg⟩
      rw [if_neg]
      rintro ⟨hcfg, hok⟩
      rw [hall 0 e rfl hcfg] at hok
      cases hok

/-- With every `Put` succeeding, the append loop pushes the configuration changes rebuilt
in term `term`. -/
theorem stored_of_ok {put : ℕ → PutResult} (hok : ∀ i, (put i).ok = true) {term : UInt32}
    (es : List Entry) :
    stored put term es = (es.filter fun e => e.IsCfg).map fun e => e.restamp term := by
  induction es generalizing put with
  | nil => rfl
  | cons e es ih =>
    rw [stored, ih fun i => hok (i + 1)]
    by_cases hc : e.IsCfg
    · rw [if_pos ⟨hc, hok 0⟩, List.filter_cons_of_pos (by simpa using hc)]
      rfl
    · rw [if_neg fun hand => hc hand.1, List.filter_cons_of_neg (by simpa using hc)]
      rfl

/-- Where the `Put`s that succeed are those of the first entries, what is pushed lies at the
same places as in the message. -/
theorem getElem?_stored {put : ℕ → PutResult} {term : UInt32} {es : List Entry}
    (hcfg : ∀ x ∈ es, x.IsCfg)
    (hinit : ∀ k < es.length, (put k).ok = true → ∀ i < k, (put i).ok = true) {k : ℕ} {e : Entry}
    (h : (stored put term es)[k]? = some e) :
    ∃ x, es[k]? = some x ∧ (put k).ok = true ∧ e = x.restamp term := by
  induction es generalizing put k with
  | nil => cases h
  | cons x es ih =>
    have hx : x.IsCfg := hcfg x List.mem_cons_self
    have htail : ∀ i < es.length, (put (i + 1)).ok = true → ∀ l < i, (put (l + 1)).ok = true := by
      intro i hi hok l hl
      have hlen : i + 1 < (x :: es).length := Nat.succ_lt_succ hi
      exact hinit (i + 1) hlen hok (l + 1) (Nat.succ_lt_succ hl)
    rw [stored] at h
    by_cases hok : (put 0).ok = true
    · rw [if_pos ⟨hx, hok⟩] at h
      cases k with
      | zero =>
        obtain rfl : x.restamp term = e := Option.some.inj h
        exact ⟨x, rfl, hok, rfl⟩
      | succ k => exact ih (fun y hy => hcfg y (List.mem_cons_of_mem _ hy)) htail h
    · -- the first `Put` was refused, so every later one was
      have hnil : stored (fun i => put (i + 1)) term es = [] := by
        rw [stored_eq_nil]
        intro i y hy _
        have hi : i < es.length := (List.getElem?_eq_some_iff.mp hy).1
        by_contra hne
        have hoki : (put (i + 1)).ok = true := by simpa using hne
        exact hok (hinit (i + 1) (Nat.succ_lt_succ hi) hoki 0 (Nat.succ_pos i))
      rw [if_neg fun hand => hok hand.2, hnil] at h
      cases h

/-- When every entry is a configuration change whose `Put` succeeds, all are pushed. -/
theorem length_stored_of_all {put : ℕ → PutResult} {term : UInt32} {es : List Entry}
    (hcfg : ∀ x ∈ es, x.IsCfg) (hok : ∀ k < es.length, (put k).ok = true) :
    (stored put term es).length = es.length := by
  induction es generalizing put with
  | nil => rfl
  | cons x es ih =>
    have hhead : x.IsCfg ∧ (put 0).ok = true :=
      ⟨hcfg x List.mem_cons_self, hok 0 (Nat.succ_pos _)⟩
    have htail := ih (fun y hy => hcfg y (List.mem_cons_of_mem _ hy))
      fun k hk => hok (k + 1) (Nat.succ_lt_succ hk)
    rw [stored, if_pos hhead, List.length_append, htail, List.length_cons]
    exact Nat.add_comm _ _

/-- An accepted message, when the deprecated log has nothing at its first new index: the
term is the message's, the role is no longer candidate, and the log has grown by what the
append loop pushes. -/
theorem accepted_entries (habs : s.logs[(q.prelogindex + 1).toNat]? = none)
    (h : s.appendEntriesQ puts q = .ok (s', r)) (hr : r.success = true) :
    s'.entries = s.entries ++ stored puts.entry q.term q.entries ∧
    s'.currentTerm = q.term ∧ s'.role ≠ .Candidate ∧ s'.logs = s.logs := by
  obtain ⟨hent, hlogs⟩ := appendEntriesQ_of_absent habs h
  rw [if_pos hr] at hent
  refine ⟨hent, (appendEntriesQ_reply h).2.1 hr, ?_, hlogs⟩
  have hrole : (s.adoptTerm q).role ≠ .Candidate := by
    show (if s.currentTerm < q.term ∨ s.role = .Candidate then RaftProxyRole.Follower
      else s.role) ≠ _
    split
    · decide
    · next hn => exact fun hc => hn (Or.inr hc)
  -- the role is the one the term check left, on both accepting paths
  rcases appendEntriesQ_accepted h hr with ⟨_, hs'⟩ | ⟨_, s1, hs1, hs'⟩
  · rw [hs', followCommit_frame]
    exact hrole
  · obtain ⟨db, logs, new, hf⟩ := storeEntries_frame hs1
    rw [hs', followCommit_frame, hf]
    exact hrole

/-! ## Redelivery -/

/-- What idempotence asks of the second processing of a message. -/
structure Unchanged (s1 s2 : RaftServer) : Prop where
  entries : s2.entries = s1.entries
  entriesDB : s2.entriesDB = s1.entriesDB
  commitIndex : s2.commitIndex = s1.commitIndex
  currentTerm : s2.currentTerm = s1.currentTerm
  role : s2.role = s1.role

/-- Following a message's commit index a second time changes nothing. -/
theorem followIndex_idem {s1 : RaftServer} (h : s1.commitIndex = s.followIndex q) :
    s1.followIndex q = s1.commitIndex := by
  rw [followIndex, h]
  unfold followIndex
  split
  · split <;> rfl
  · rfl

/-- The second processing of an accepted message, step by step: the term check and the
consistency check pass again, and the entries go through the append loop again. -/
theorem redelivered (habs : s.logs[(q.prelogindex + 1).toNat]? = none)
    (h : s.appendEntriesQ puts q = .ok (s1, r1))
    (hr : r1.success = true) :
    s1.appendEntriesQ puts' q = .ok
      (if q.entries.isEmpty then s1.freshTime.sendreponse q true true
        else (s1.appendLoop puts'.entry q.entries).sendreponse q true false) := by
  have hacc : s.Accepts q := (appendEntriesQ_success h).mp hr
  obtain ⟨hent, hterm, hrole, hlogs1⟩ := accepted_entries habs h hr
  -- the entry the message builds on is still there: the log has only grown
  have hprev : s1.PrevMatches q := by
    intro hpos
    obtain ⟨e, he, hm⟩ := hacc.prev hpos
    exact ⟨e, Log.getElem?_of_isPrefix (appendEntriesQ_entries h) he, hm⟩
  have hstore : q.entries ≠ [] →
      s1.storeEntries puts' q = .ok (s1.appendLoop puts'.entry q.entries) := by
    intro hne
    rcases appendEntriesQ_accepted h hr with ⟨hemp, _⟩ | ⟨_, s2, hs2, _⟩
    · exact absurd hemp hne
    · have habs' : (s.adoptTerm q).logs[(q.prelogindex + 1).toNat]? = none := habs
      exact storeEntries_again habs' hlogs1 hs2
  unfold appendEntriesQ
  rw [checkTerm_of_same hterm hrole, Except.ok_bind]
  dsimp only
  rw [checkPrev_of_matches hprev, Except.ok_bind, if_pos rfl]
  by_cases hemp : q.entries.isEmpty
  · rw [if_pos hemp, if_pos hemp]
    rfl
  · rw [if_neg hemp, if_neg hemp, hstore fun he => hemp (List.isEmpty_iff.mpr he), Except.ok_bind]
    rfl

/-- A message that was accepted is accepted again, and the second processing changes nothing
exactly when it stores no configuration change: the message carries none, or every `Put` of
the second processing is refused. -/
theorem redelivery_iff (habs : s.logs[(q.prelogindex + 1).toNat]? = none)
    (h : s.appendEntriesQ puts q = .ok (s1, r1))
    (hr : r1.success = true) :
    (∃ s2 r2, s1.appendEntriesQ puts' q = .ok (s2, r2) ∧ r2.success = true ∧ s1.Unchanged s2) ↔
      ∀ i e, q.entries[i]? = some e → e.IsCfg → (puts'.entry i).ok = false := by
  obtain ⟨hent, hterm, hrole, hlogs1⟩ := accepted_entries habs h hr
  have hagain : s1.appendEntriesQ puts' q = _ := redelivered habs h hr
  rw [← @stored_eq_nil _ s1.currentTerm]
  constructor
  · -- unchanged entries leave no room for what the second processing pushes
    rintro ⟨s2, r2, h2, hr2, hsame⟩
    have habs1 : s1.logs[(q.prelogindex + 1).toNat]? = none := by rw [hlogs1]; exact habs
    obtain ⟨hent2, _⟩ := accepted_entries habs1 h2 hr2
    rw [hsame.entries] at hent2
    rw [hterm]
    exact List.self_eq_append_right.mp hent2
  · -- nothing is pushed, so only the tail runs, a second time with the same message
    intro hnil
    have hcommit : ∀ t : RaftServer, t.commitIndex = s1.commitIndex →
        (t.followCommit q).commitIndex = s1.commitIndex := by
      intro t ht
      have hidem := followIndex_idem (appendEntriesQ_commitIndex h)
      rw [followCommit_commitIndex, ht]
      exact hidem
    rw [appendLoop_of_stored_nil hnil] at hagain
    by_cases hemp : q.entries.isEmpty
    · rw [if_pos hemp] at hagain
      refine ⟨_, _, hagain, rfl, ?_⟩
      have hframe := followCommit_frame s1.freshTime q
      exact ⟨by rw [hframe]; rfl, by rw [hframe]; rfl, hcommit _ rfl, by rw [hframe]; rfl,
        by rw [hframe]; rfl⟩
    · rw [if_neg hemp] at hagain
      refine ⟨_, _, hagain, rfl, ?_⟩
      have hframe := followCommit_frame s1 q
      exact ⟨by rw [hframe], by rw [hframe], hcommit _ rfl, by rw [hframe], by rw [hframe]⟩

/-- The message a leader sends first to a new node: its own entry and the node's. -/
def firstMessage : AppendEntriesQ := ⟨0, 0, 0, 0, [cfgadd 0 1, cfgadd 0 2]⟩

/-- A new node stores the first message of the leader twice when it is sent twice. -/
theorem redelivery_duplicates :
    ¬ ∀ puts puts' s q s1 r1, appendEntriesQ puts s q = .ok (s1, r1) → r1.success = true →
      ∃ s2 r2, s1.appendEntriesQ puts' q = .ok (s2, r2) ∧ r2.success = true ∧
        s1.Unchanged s2 := by
  intro hall
  obtain ⟨s2, r2, h2, _, hsame⟩ := hall .allOk .allOk fresh firstMessage _ _ rfl rfl
  injection h2 with h2
  injection h2 with h2 _
  have hlen : s2.entries.length = 4 := by rw [← h2]; rfl
  rw [hsame.entries] at hlen
  exact absurd hlen (by decide)

/-- Every `Put` of an entry is refused. -/
def refusedPuts : Puts := ⟨true, fun _ => ⟨false, []⟩⟩

/-- A message that stores an entry behind two others, and again while the database refuses. -/
theorem redelivery_iff_refused : ∃ s1 s2 r2,
    (divergent.appendEntriesQ .allOk ⟨1, 1, 0, 0, [cfgadd 1 3]⟩ = .ok (s1, ⟨1, true, false⟩) ∧
      s1.entries = divergent.entries ++ [cfgadd 1 3]) ∧
    s1.appendEntriesQ refusedPuts ⟨1, 1, 0, 0, [cfgadd 1 3]⟩ = .ok (s2, r2) ∧
    r2.success = true ∧ s1.Unchanged s2 := by
  obtain ⟨s2, r2, hagain⟩ := (@redelivery_iff .allOk refusedPuts divergent _
    ⟨1, 1, 0, 0, [cfgadd 1 3]⟩ _ rfl rfl rfl).mpr fun _ _ _ _ => rfl
  exact ⟨_, s2, r2, ⟨rfl, rfl⟩, hagain⟩

/-! ## Conflicts -/

/-- The `i`-th entry of the message belongs at an uncommitted index where the log holds an
entry of another term. -/
def Conflict (s : RaftServer) (q : AppendEntriesQ) (i : ℕ) : Prop :=
  s.commitIndex.toNat < q.prelogindex.toNat + 1 + i ∧
  ∃ e old, q.entries[i]? = some e ∧ s.entries[q.prelogindex.toNat + 1 + i]? = some old ∧
    old.term ≠ e.term

/-- The first conflicting entry of the message. -/
def FirstConflict (s : RaftServer) (q : AppendEntriesQ) (i : ℕ) : Prop :=
  s.Conflict q i ∧ ∀ k < i, ¬ s.Conflict q k

/-- The repair of a conflict at index `j`, that of the message's `i`-th entry: the log is
cut at `j` and the rest of the message put there, and the entries DB holds below `j` what it
held, from `j` on the values written for these entries, and nothing behind them. -/
structure Truncated (s : RaftServer) (q : AppendEntriesQ) (i : ℕ) (s' : RaftServer) : Prop where
  entries : s'.entries = s.entries.take (q.prelogindex.toNat + 1 + i) ++ q.entries.drop i
  below : ∀ k : UInt32, k.toNat < q.prelogindex.toNat + 1 + i →
    s'.entriesDB.find? (indexKey k) = s.entriesDB.find? (indexKey k)
  written : ∀ (k : UInt32) (e : Entry), q.prelogindex.toNat + 1 + i ≤ k.toNat →
    s'.entries[k.toNat]? = some e →
    ∃ after, s'.entriesDB.find? (indexKey k) = some (k, sliceOfCStr e.serialize after)
  gone : ∀ k : UInt32, s'.entries.length ≤ k.toNat → s'.entriesDB.find? (indexKey k) = none

/-- A conflict is never repaired: the call does what a repair asks exactly when there is no
conflict to repair. -/
theorem truncates_iff (h : s.appendEntriesQ puts q = .ok (s', r)) :
    (∀ i, s.FirstConflict q i → s.Truncated q i s') ↔ ∀ i, ¬ s.FirstConflict q i := by
  constructor
  · intro hall i hfirst
    have htrunc := hall i hfirst
    obtain ⟨⟨_, e, old, he, hold, hne⟩, _⟩ := hfirst
    -- the old entry is still at its index, where the repaired log has the message's entry
    have hkept : s'.entries[q.prelogindex.toNat + 1 + i]? = some old :=
      Log.getElem?_of_isPrefix (appendEntriesQ_entries h) hold
    have hlen : q.prelogindex.toNat + 1 + i < s.entries.length :=
      (List.getElem?_eq_some_iff.mp hold).1
    have htake : (s.entries.take (q.prelogindex.toNat + 1 + i)).length =
        q.prelogindex.toNat + 1 + i := by
      rw [List.length_take]
      omega
    rw [htrunc.entries, List.getElem?_append_right (by omega), htake, Nat.sub_self,
      List.getElem?_drop, Nat.add_zero, he] at hkept
    obtain rfl : e = old := Option.some.inj hkept
    exact hne rfl
  · intro hnone i hfirst
    exact absurd hfirst (hnone i)

/-- The message that should replace entry 1 of the divergent node. -/
def repair : AppendEntriesQ := ⟨1, 0, 0, 0, [cfgadd 1 3]⟩

theorem divergent_conflict : divergent.FirstConflict repair 0 :=
  ⟨⟨by decide, cfgadd 1 3, cfgadd 0 2, rfl, rfl, by decide⟩,
    fun k hk => absurd hk (Nat.not_lt_zero k)⟩

/-- The conflicting entry of the divergent node survives the accepted message. -/
theorem conflict_not_truncated :
    ¬ ∀ puts s q s' r, appendEntriesQ puts s q = .ok (s', r) → r.success = true →
      ∀ i, s.FirstConflict q i → s.Truncated q i s' := by
  intro hall
  have htrunc := hall .allOk divergent repair _ _ rfl rfl 0 divergent_conflict
  exact absurd htrunc.entries (by decide)

theorem truncates_iff_divergent :
    ¬ ∀ i, divergent.FirstConflict repair i → divergent.Truncated repair i
      (divergent.appendLoop Puts.allOk.entry [cfgadd 1 3]) := fun hall =>
  (@truncates_iff .allOk divergent _ repair _ rfl).mp hall 0 divergent_conflict

/-! ## Copied entries -/

/-- Neither log holds an entry at an index of the message. -/
def NonePresent (s : RaftServer) (q : AppendEntriesQ) : Prop :=
  ∀ i < q.entries.length,
    s.entries[(q.prelogindex + 1 + UInt32.ofNat i).toNat]? = none ∧
    s.logs[(q.prelogindex + 1 + UInt32.ofNat i).toNat]? = none

/-- A list survives `filter` and `map` exactly when every element passes and is fixed. -/
theorem map_filter_eq_self {α : Type*} {p : α → Bool} {f : α → α} {l : List α} :
    (l.filter p).map f = l ↔ ∀ a ∈ l, p a = true ∧ f a = a := by
  have hmap : ∀ m : List α, m.map f = m ↔ ∀ a ∈ m, f a = a := by
    intro m
    have hinj : m.map f = m.map id ↔ ∀ a ∈ m, f a = id a := List.map_inj_left
    rwa [List.map_id] at hinj
  constructor
  · intro h
    have hlen := congrArg List.length h
    rw [List.length_map, List.length_filter_eq_length_iff] at hlen
    rw [List.filter_eq_self.mpr hlen, hmap] at h
    exact fun a ha => ⟨hlen a ha, h a ha⟩
  · intro h
    rw [List.filter_eq_self.mpr fun a ha => (h a ha).1, hmap]
    exact fun a ha => (h a ha).2

/-- The appended entries are the message's own exactly when each of these is a `CFGADD` of
the message's term without payload: a `NORMAL` entry is dropped, and type, term and payload
of the others are replaced. -/
theorem copied_iff (hok : ∀ i, (puts.entry i).ok = true) (hnone : s.NonePresent q)
    (h : s.appendEntriesQ puts q = .ok (s', r)) (hr : r.success = true) :
    s'.entries = s.entries ++ q.entries ↔
      ∀ e ∈ q.entries, e.type = .CFGADD ∧ e.term = q.term ∧ e.write_it = 0 := by
  rcases hes : q.entries with _ | ⟨e, es⟩
  · rcases appendEntriesQ_accepted h hr with ⟨_, hs'⟩ | ⟨hne, _⟩
    · rw [hs', followCommit_frame]
      simp [adoptTerm, freshTime]
    · exact absurd hes hne
  · -- with entries, the first index of the message is one at which no log holds anything
    have habs : s.logs[(q.prelogindex + 1).toNat]? = none := by
      have h0 := (hnone 0 (by rw [hes]; exact Nat.succ_pos _)).2
      have hzero : q.prelogindex + 1 + UInt32.ofNat 0 = q.prelogindex + 1 := by simp
      rwa [hzero] at h0
    obtain ⟨hent, _⟩ := accepted_entries habs h hr
    rw [hent, stored_of_ok hok, hes, List.append_right_inj, map_filter_eq_self]
    refine forall₂_congr fun x _ => ?_
    rw [Entry.restamp_eq_self, decide_eq_true_iff]
    constructor
    · exact fun hx => hx.2
    · exact fun hx => ⟨Or.inl hx.1, hx⟩

/-- An entry of term 0 that arrives in a message of term 1 is stored with term 1. -/
theorem copied_restamps :
    ¬ ∀ puts s q s' r, (∀ i, (Puts.entry puts i).ok = true) → NonePresent s q →
      appendEntriesQ puts s q = .ok (s', r) → r.success = true →
      s'.entries = s.entries ++ q.entries := by
  intro hall
  have hlog := hall .allOk fresh ⟨1, 0, 0, 0, [cfgadd 0 1, cfgadd 0 2]⟩ _ _ (fun _ => rfl)
    (fun _ _ => ⟨rfl, rfl⟩) rfl rfl
  exact absurd hlog (by decide)

theorem copied_iff_first :
    (fresh.appendLoop Puts.allOk.entry firstMessage.entries).entries =
      fresh.entries ++ firstMessage.entries :=
  (@copied_iff .allOk fresh _ firstMessage _ (fun _ => rfl) (fun _ _ => ⟨rfl, rfl⟩)
    rfl rfl).mpr (by decide)

end RaftServer
end NanoRaft
