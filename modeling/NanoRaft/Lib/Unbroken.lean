import Mathlib.Tactic

/-!
# Unbroken runs of sequence numbers

A receiver that restores an order has got some set of sequence numbers, counted from 1,
and may hand out those up to the first one that is missing.
-/

/-- All numbers from 1 to `k` have been got. -/
def Unbroken (got : Set ℕ) (k : ℕ) : Prop := ∀ i, 1 ≤ i → i ≤ k → i ∈ got

namespace Unbroken

variable {got got' : Set ℕ} {k : ℕ}

theorem zero (got : Set ℕ) : Unbroken got 0 := by
  intro i h1 h0
  omega

theorem mono (h : Unbroken got k) (hsub : got ⊆ got') : Unbroken got' k :=
  fun i h1 hk => hsub (h i h1 hk)

/-- One more number extends the run. -/
theorem succ (h : Unbroken got k) (hk : k + 1 ∈ got) : Unbroken got (k + 1) := by
  intro i h1 hi
  rcases Nat.lt_or_eq_of_le hi with hlt | rfl
  · exact h i h1 (by omega)
  · exact hk

/-- The run ends in front of the first number that is missing. -/
theorem isGreatest (h : Unbroken got k) (hk : k + 1 ∉ got) : IsGreatest {n | Unbroken got n} k := by
  refine ⟨h, fun n hn => ?_⟩
  by_contra hlt
  exact hk (hn (k + 1) (by omega) (by omega))

end Unbroken
