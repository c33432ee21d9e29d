import Mathlib.Tactic

/-!
# Votes for a mark

Every voter has a mark, and votes for all marks up to its own. The voters are the members of a
cluster other than the one that counts, which has every mark itself.

* `votes_anti`: a higher mark has no more votes;
* `exists_iff_next`: if the next mark is acceptable, some later acceptable mark has a majority
  exactly if the next one has.
-/

namespace Quorum

variable {V : Type*} (mark : V → ℕ) (voters : List V)

/-- How many voters have reached the mark `n`. -/
def votes (n : ℕ) : ℕ := voters.countP fun v => decide (n ≤ mark v)

/-- The voters for the mark and the one that counts are more than half of the cluster. -/
def Majority (n : ℕ) : Prop := voters.length + 1 < 2 * (votes mark voters n + 1)

variable {mark voters}

theorem votes_anti {n n' : ℕ} (h : n ≤ n') : votes mark voters n' ≤ votes mark voters n := by
  apply List.countP_mono_left
  intro v _ hv
  rw [decide_eq_true_iff] at hv ⊢
  omega

/-- A mark that somebody has reached is not above all marks. -/
theorem exists_of_votes_pos {n : ℕ} (h : 0 < votes mark voters n) : ∃ v ∈ voters, n ≤ mark v := by
  obtain ⟨v, hv, hn⟩ := List.countP_pos_iff.mp h
  exact ⟨v, hv, of_decide_eq_true hn⟩

/-- The one that counts needs half of the others. -/
theorem majority_iff {n : ℕ} : Majority mark voters n ↔ voters.length ≤ 2 * votes mark voters n := by
  unfold Majority
  omega

/-- More than half of the voters alone are a majority already, but not only they. -/
theorem half_succ_le_iff {n : ℕ} :
    voters.length / 2 + 1 ≤ votes mark voters n ↔
      Majority mark voters n ∧ 2 * votes mark voters n ≠ voters.length := by
  rw [majority_iff]
  omega

theorem Majority.anti {n n' : ℕ} (h : Majority mark voters n') (hle : n ≤ n') :
    Majority mark voters n := by
  have hanti : votes mark voters n' ≤ votes mark voters n := votes_anti hle
  rw [majority_iff] at h ⊢
  omega

/-- The next mark decides, if it is acceptable. -/
theorem exists_iff_next {ok : ℕ → Prop} {c : ℕ} (h : ok (c + 1)) :
    (∃ n, c < n ∧ ok n ∧ Majority mark voters n) ↔ Majority mark voters (c + 1) := by
  constructor
  · intro hex
    obtain ⟨n, hlt, _, hmaj⟩ := hex
    exact hmaj.anti (by omega)
  · intro hmaj
    exact ⟨c + 1, by omega, h, hmaj⟩

end Quorum
