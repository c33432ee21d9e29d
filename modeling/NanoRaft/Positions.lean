import NanoRaft.Commitment

/-!
# Positions in the log

Where the two ends of an `appendentries_q` place its entries, and what the receiver finds at
the position that the message builds on.

* `same_indices_iff`: for which proxies the sender's positions are the receiver's;
* `checks_exactly_iff`: for which messages the consistency check is exact.
-/

namespace NanoRaft

namespace AppendEntriesQ

/-- `dwNewIndex` of the `i`-th entry. -/
def newIndex (q : AppendEntriesQ) (i : ℕ) : UInt32 := q.prelogindex + 1 + UInt32.ofNat i

/-- `dwLastNewIndex`, the bound of the follower's commit index. -/
def lastNewIndex (q : AppendEntriesQ) : UInt32 := q.prelogindex + UInt32.ofNat q.entries.length

end AppendEntriesQ

namespace RaftServer

variable {s : RaftServer} {p : RaftProxy} {q : AppendEntriesQ}

/-! ## Sender and receiver -/

/-- Every entry of the message is the sender's at the index that the receiver assigns to it,
and the commit bound is the index of the last one. -/
structure SameIndices (s : RaftServer) (q : AppendEntriesQ) : Prop where
  placed : ∀ i e, q.entries[i]? = some e → s.entries[(q.newIndex i).toNat]? = some e
  last : ∀ e, q.entries.getLast? = some e → s.entries[q.lastNewIndex.toNat]? = some e

/-- The first three entries of the log are equal. -/
def Repeats (s : RaftServer) : Prop :=
  ∃ e, s.entries[0]? = some e ∧ s.entries[1]? = some e ∧ s.entries[2]? = some e

/-- The receiver's index of the first entry is the sender's next one, also where the sender's
64 bits do not fit. -/
theorem newIndex_zero (h : s.buildAppendEntries p = .ok q) :
    q.newIndex 0 = p.nextIndex.toUInt32 := by
  obtain ⟨_, hprev, _⟩ := buildAppendEntries_cases h
  unfold AppendEntriesQ.newIndex
  rw [hprev, UInt64.toUInt32_sub]
  show p.nextIndex.toUInt32 - 1 + 1 + 0 = _
  rw [UInt32.add_zero, UInt32.sub_add_cancel]

/-- The commit bound of a message with one entry is the index of that one. -/
theorem lastNewIndex_of_one {e : Entry} (hone : q.entries = [e]) :
    q.lastNewIndex = q.newIndex 0 := by
  unfold AppendEntriesQ.lastNewIndex AppendEntriesQ.newIndex
  rw [hone]
  show q.prelogindex + 1 = q.prelogindex + 1 + 0
  rw [UInt32.add_zero]

/-- A message with the entry at the next index alone has it where the receiver puts it. -/
theorem sameIndices_of_one {e : Entry} (h : s.buildAppendEntries p = .ok q)
    (he : s.entries[p.nextIndex.toUInt32.toNat]? = some e) (hone : q.entries = [e]) :
    s.SameIndices q := by
  have hzero := newIndex_zero h
  constructor
  · intro i x hx
    rw [hone, List.getElem?_singleton] at hx
    split_ifs at hx with hi
    obtain rfl := Option.some.inj hx
    rw [hi, hzero]
    exact he
  · intro x hx
    rw [hone] at hx
    obtain rfl := Option.some.inj hx
    rw [lastNewIndex_of_one hone, hzero]
    exact he

/-- A message with entries 0 and 1 has them at the indices 1 and 2 for the receiver. -/
theorem sameIndices_two_iff {e0 e1 : Entry} (hprev : q.prelogindex = 0)
    (he0 : s.entries[0]? = some e0) (he1 : s.entries[1]? = some e1) (htwo : q.entries = [e0, e1]) :
    s.SameIndices q ↔ s.Repeats := by
  have hfirst : q.newIndex 0 = 1 := by
    rw [AppendEntriesQ.newIndex, hprev]
    rfl
  have hsecond : q.newIndex 1 = 2 := by
    rw [AppendEntriesQ.newIndex, hprev]
    rfl
  have hlast : q.lastNewIndex = 2 := by
    rw [AppendEntriesQ.lastNewIndex, hprev, htwo]
    rfl
  constructor
  · intro hsame
    have h0 := hsame.placed 0 e0 (by rw [htwo]; rfl)
    have h1 := hsame.placed 1 e1 (by rw [htwo]; rfl)
    rw [hfirst] at h0
    rw [hsecond] at h1
    obtain rfl : e0 = e1 := Option.some.inj (h0.symm.trans he1)
    exact ⟨e0, he0, h0, h1⟩
  · rintro ⟨e, h0, h1, h2⟩
    obtain rfl : e0 = e := Option.some.inj (he0.symm.trans h0)
    obtain rfl : e1 = e0 := Option.some.inj (he1.symm.trans h1)
    refine ⟨fun i x hx => ?_, fun x hx => ?_⟩
    · rw [htwo] at hx
      match i, hx with
      | 0, hx =>
        obtain rfl := Option.some.inj hx
        rw [hfirst]
        exact h1
      | 1, hx =>
        obtain rfl := Option.some.inj hx
        rw [hsecond]
        exact h2
    · rw [htwo] at hx
      obtain rfl := Option.some.inj hx
      rw [hlast]
      exact h2

/-- **One numbering.** The positions agree except in the first message to a new node, which
carries entry 0 besides: there the log would have to start with the same entry three times. -/
theorem same_indices_iff (h : s.buildAppendEntries p = .ok q) (hne : q.entries ≠ []) :
    s.SameIndices q ↔ p.nextIndex ≠ 1 ∨ s.Repeats := by
  obtain ⟨_, hprev, _, hnil | ⟨_, e, he, hform⟩⟩ := buildAppendEntries_cases h
  · exact absurd hnil hne
  · rcases hform with ⟨hfirst, e0, he0, htwo⟩ | ⟨hlater, hone⟩
    · have hnext : p.nextIndex = 1 := by
        rw [← UInt64.sub_add_cancel p.nextIndex 1, hfirst]
        rfl
      rw [hfirst] at hprev
      rw [hnext] at he
      rw [sameIndices_two_iff hprev he0 he htwo]
      simp [hnext]
    · refine iff_of_true (sameIndices_of_one h he hone) (Or.inl fun hnext => hlater ?_)
      rw [hnext]
      rfl

/-- The second message to node 2 carries entry 2. -/
theorem same_indices_second : ∃ q, (led [(2, 1), (3, 0)]).buildAppendEntries
    { RaftProxy.new with nextIndex := 2, matchIndex := 1 } = .ok q ∧ q.entries ≠ [] ∧
      (led [(2, 1), (3, 0)]).SameIndices q := by
  have hok : ∃ q, (led [(2, 1), (3, 0)]).buildAppendEntries
      { RaftProxy.new with nextIndex := 2, matchIndex := 1 } = .ok q ∧ q.entries ≠ [] :=
    ⟨_, rfl, List.cons_ne_nil _ _⟩
  obtain ⟨q, hq, hne⟩ := hok
  exact ⟨q, hq, hne, (same_indices_iff hq hne).mpr (Or.inl (by decide))⟩

/-- Node 2 has joined, and its first message carries entry 0 as the entry of index 1. -/
theorem first_message_shifted : ¬ ∀ s es t, serving.init s → serving.run s es = some t →
    t.role = .Leader → ∀ id p q, t.proxys.find? id = some p → t.buildAppendEntries p = .ok q →
      q.entries ≠ [] → t.SameIndices q := by
  intro hall
  have hrun : ((serving.run alone (comes .allOk 5 2)).any fun t : RaftServer =>
      decide (t.role = .Leader) && (t.proxys.find? 2).any fun p =>
        match t.buildAppendEntries p with
        | .ok q => decide (q.entries[0]? ≠ none ∧ q.entries[0]? ≠ t.entries[(q.newIndex 0).toNat]?)
        | .error _ => false) = true := by decide +kernel
  obtain ⟨t, ht, htest⟩ := (Option.any_eq_true _ _).mp hrun
  rw [Bool.and_eq_true, decide_eq_true_iff] at htest
  obtain ⟨hlead, htest⟩ := htest
  obtain ⟨p, hp, htest⟩ := (Option.any_eq_true _ _).mp htest
  split at htest
  · next q hq =>
    obtain ⟨hsome, hother⟩ := of_decide_eq_true htest
    obtain ⟨e, he⟩ := Option.ne_none_iff_exists'.mp hsome
    have hne : q.entries ≠ [] := by
      intro hnil
      rw [hnil] at he
      cases he
    have hsame := hall alone _ t ⟨_, _, _, launchStart_alone⟩ ht hlead 2 p q hp hq hne
    exact hother (he.trans (hsame.placed 0 e he).symm)
  · cases htest

/-! ## The consistency check -/

/-- The entry that the message builds on is in the log, with the term that it names. -/
def BuildsOn (s : RaftServer) (q : AppendEntriesQ) : Prop :=
  q.prelogindex = 0 ∨ ∃ e, s.entries[q.prelogindex.toNat]? = some e ∧ e.term = q.prelogterm

/-- The check comes back, and lets the message through exactly if it builds on an entry of
the log. -/
def ChecksExactly (s : RaftServer) (q : AppendEntriesQ) : Prop :=
  ∃ b, s.checkPrev q = .ok b ∧ (b = true ↔ s.BuildsOn q)

/-- The successor of the last index wraps around to 0, which no length is below. -/
theorem termByIndex_isOk_iff (terms : List UInt32) (i : UInt32) :
    (∃ t, termByIndex terms i = .ok t) ↔ (i = 0xFFFFFFFF → 2 ^ 32 ≤ terms.length) := by
  have hlt := i.toNat_lt
  unfold termByIndex
  by_cases hlen : terms.length < (i + 1).toNat
  · rw [if_pos hlen]
    refine iff_of_true ⟨_, rfl⟩ fun hlast => ?_
    rw [hlast] at hlen
    exact absurd hlen (Nat.not_lt_zero _)
  · rw [if_neg hlen]
    cases hx : terms[i.toNat]? with
    | some x =>
      obtain ⟨hin, _⟩ := List.getElem?_eq_some_iff.mp hx
      refine iff_of_true ⟨_, rfl⟩ fun hlast => ?_
      rw [hlast] at hin
      exact hin
    | none =>
      have hout := List.getElem?_eq_none_iff.mp hx
      refine iff_of_false (fun ⟨_, h⟩ => by cases h) fun hall => ?_
      by_cases hlast : i = 0xFFFFFFFF
      · have hlong := hall hlast
        omega
      · -- the comparison would have noticed
        have hsucc := UInt.toNat_succ32_of_ne hlast
        omega

theorem checkPrev_isOk_iff :
    (∃ b, s.checkPrev q = .ok b) ↔ (q.prelogindex = 0xFFFFFFFF → 2 ^ 32 ≤ s.entries.length) := by
  unfold checkPrev
  by_cases hpos : 0 < q.prelogindex
  · have hread := termByIndex_isOk_iff (s.entries.map Entry.term) q.prelogindex
    rw [List.length_map] at hread
    rw [if_pos hpos, ← hread]
    constructor
    · rintro ⟨b, hb⟩
      obtain ⟨t, ht, _⟩ := Except.bind_eq_ok.mp hb
      exact ⟨t, ht⟩
    · rintro ⟨t, ht⟩
      refine ⟨_, Except.bind_eq_ok.mpr ⟨t, ht, rfl⟩⟩
  · rw [if_neg hpos]
    refine iff_of_true ⟨_, rfl⟩ fun hlast => ?_
    rw [hlast] at hpos
    exact absurd (by decide) hpos

/-- What the check finds: an entry whose term is all ones counts as absent. -/
theorem prevMatches_iff :
    s.PrevMatches q ↔ s.BuildsOn q ∧ ¬ (q.prelogindex ≠ 0 ∧ q.prelogterm = 0xFFFFFFFF) := by
  have hpos : 0 < q.prelogindex ↔ q.prelogindex ≠ 0 := by
    rw [UInt32.lt_iff_toNat_lt, ne_eq, ← UInt32.toNat_inj]
    exact Nat.pos_iff_ne_zero
  unfold PrevMatches BuildsOn
  rw [hpos]
  by_cases hzero : q.prelogindex = 0
  · exact iff_of_true (fun h => absurd hzero h) ⟨Or.inl hzero, fun h => h.1 hzero⟩
  · constructor
    · intro hprev
      obtain ⟨e, he, hterm, hones⟩ := hprev hzero
      rw [hterm] at hones
      exact ⟨Or.inr ⟨e, he, hterm⟩, fun h => hones h.2⟩
    · rintro ⟨hbuilds, hones⟩ _
      rcases hbuilds with h | ⟨e, he, hterm⟩
      · exact absurd h hzero
      · exact ⟨e, he, hterm, fun h => hones ⟨hzero, hterm.symm.trans h⟩⟩

/-- **The check.** It is exact unless the message builds on the last 32-bit index and the log
does not reach it, or on an entry whose term reads as `-1`. -/
theorem checks_exactly_iff : s.ChecksExactly q ↔
    (q.prelogindex = 0xFFFFFFFF → 2 ^ 32 ≤ s.entries.length) ∧
    ¬ (q.prelogindex ≠ 0 ∧ q.prelogterm = 0xFFFFFFFF ∧ s.BuildsOn q) := by
  rw [← checkPrev_isOk_iff]
  constructor
  · rintro ⟨b, hb, hexact⟩
    refine ⟨⟨b, hb⟩, fun ⟨hne, hones, hbuilds⟩ => ?_⟩
    have hprev := (checkPrev_eq_ok hb).mp (hexact.mpr hbuilds)
    exact (prevMatches_iff.mp hprev).2 ⟨hne, hones⟩
  · rintro ⟨⟨b, hb⟩, hones⟩
    refine ⟨b, hb, ?_⟩
    rw [checkPrev_eq_ok hb, prevMatches_iff, and_iff_left_iff_imp]
    exact fun hbuilds h => hones ⟨h.1, h.2, hbuilds⟩

/-- A node without a log is asked about the last 32-bit index. -/
theorem checks_outside : ¬ ∀ (s : RaftServer) (q : AppendEntriesQ), s.ChecksExactly q := by
  intro hall
  obtain ⟨b, hb, _⟩ := hall (RaftServer.new ⟨none, .empty⟩) ⟨0, 0xFFFFFFFF, 0, 0, []⟩
  cases hb

end RaftServer
end NanoRaft
