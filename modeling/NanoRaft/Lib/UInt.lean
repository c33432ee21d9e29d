import Mathlib.Tactic

/-!
# Machine integers as linear orders

The instances and the handful of `toNat` facts that let `min`, `omega` and the order
lemmas be used on the fixed-width counters of the server.
-/

namespace UInt

instance instLinearOrderUInt32 : LinearOrder UInt32 where
  le_refl := UInt32.le_refl
  le_trans _ _ _ := UInt32.le_trans
  lt_iff_le_not_ge a b := by
    simp only [UInt32.lt_iff_toNat_lt, UInt32.le_iff_toNat_le]
    omega
  le_antisymm _ _ := UInt32.le_antisymm
  le_total := UInt32.le_total
  toDecidableLE := inferInstance
  toDecidableEq := inferInstance
  toDecidableLT := inferInstance

/-- An increment that stays below the width is the increment of naturals. -/
theorem toNat_succ32 {a : UInt32} (h : a.toNat + 1 < 2 ^ 32) :
    (a + 1).toNat = a.toNat + 1 := by
  rw [UInt32.toNat_add]
  exact Nat.mod_eq_of_lt h

/-- Only the last value has no successor. -/
theorem toNat_succ32_of_ne {a : UInt32} (h : a ≠ 0xFFFFFFFF) : (a + 1).toNat = a.toNat + 1 := by
  have hlt := a.toNat_lt
  have hne : a.toNat ≠ 2 ^ 32 - 1 := fun heq => h (UInt32.toNat_inj.mp heq)
  exact toNat_succ32 (by omega)

theorem toNat_succ64 {a : UInt64} (h : a.toNat + 1 < 2 ^ 64) :
    (a + 1).toNat = a.toNat + 1 := by
  rw [UInt64.toNat_add]
  exact Nat.mod_eq_of_lt h

/-- Truncation to 32 bits keeps a small value. -/
theorem toNat_toUInt32 {a : UInt64} (h : a.toNat < 2 ^ 32) : a.toUInt32.toNat = a.toNat := by
  rw [UInt64.toNat_toUInt32]
  exact Nat.mod_eq_of_lt h

theorem toNat_ofNat32 {n : ℕ} (h : n < 2 ^ 32) : (UInt32.ofNat n).toNat = n := by
  rw [UInt32.toNat_ofNat']
  exact Nat.mod_eq_of_lt h

theorem eq_zero_of_le {a : UInt32} (h : a ≤ 0) : a = 0 :=
  le_antisymm h (UInt32.le_iff_toNat_le.mpr (Nat.zero_le _))

theorem toNat_min (a b : UInt32) : (min a b).toNat = min a.toNat b.toNat := by
  rcases le_total a b with h | h
  · rw [min_eq_left h, min_eq_left (UInt32.le_iff_toNat_le.mp h)]
  · rw [min_eq_right h, min_eq_right (UInt32.le_iff_toNat_le.mp h)]

/-- The signed view of an unsigned word is `-1` exactly on the all-ones word. -/
theorem toInt32_eq_neg_one {a : UInt32} : a.toInt32 = -1 ↔ a = 0xFFFFFFFF := by
  constructor
  · intro h
    rw [← UInt32.toUInt32_toInt32 a, h]
    decide
  · rintro rfl
    decide

theorem toInt_toInt32 (a : UInt32) : a.toInt32.toInt = (a.toNat : ℤ).bmod (2 ^ 32) := by
  show a.toInt32.toBitVec.toInt = _
  rw [UInt32.toBitVec_toInt32, BitVec.toInt_eq_toNat_bmod]
  rfl

/-- The signed view of a word below `2 ^ 31` is the word. -/
theorem toInt_toInt32_of_lt {a : UInt32} (h : a.toNat < 2 ^ 31) : a.toInt32.toInt = a.toNat := by
  rw [toInt_toInt32]
  exact Int.bmod_eq_of_le (by omega) (by omega)

/-- From `2 ^ 31` on the signed view is negative. -/
theorem toInt_toInt32_of_ge {a : UInt32} (h : 2 ^ 31 ≤ a.toNat) :
    a.toInt32.toInt = a.toNat - 2 ^ 32 := by
  have hlt := a.toNat_lt
  rw [toInt_toInt32, Int.bmod_def]
  omega

/-- A signed sum that stays in range is the sum of integers. -/
theorem toInt_add32 {a b : Int32} (hl : -2 ^ 31 ≤ a.toInt + b.toInt)
    (hu : a.toInt + b.toInt < 2 ^ 31) : (a + b).toInt = a.toInt + b.toInt := by
  rw [Int32.toInt_add]
  exact Int.bmod_eq_of_le (by omega) (by omega)

theorem toInt_sub32 {a b : Int32} (hl : -2 ^ 31 ≤ a.toInt - b.toInt)
    (hu : a.toInt - b.toInt < 2 ^ 31) : (a - b).toInt = a.toInt - b.toInt := by
  rw [Int32.toInt_sub]
  exact Int.bmod_eq_of_le (by omega) (by omega)

end UInt
