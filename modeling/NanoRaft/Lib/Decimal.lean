import Mathlib.Tactic
import Mathlib.Data.Nat.Digits.Defs
import Mathlib.Data.List.TakeWhile

/-!
# Decimal texts

Natural numbers written in ASCII digits, the most significant one first, and what an input
stream makes of such a text when it extracts a signed number: it skips white space, takes a
sign and the digits behind it, and saturates where the number does not fit.
-/

namespace Decimal

def digit (d : ℕ) : UInt8 := (48 + d).toUInt8

def isDigit (b : UInt8) : Bool := decide (48 ≤ b ∧ b ≤ 57)

def isSpace (b : UInt8) : Bool := decide (b = 32 ∨ (9 ≤ b ∧ b ≤ 13))

/-- The decimal text of a number, without leading zeros. -/
def text (n : ℕ) : List UInt8 :=
  if n = 0 then [digit 0] else ((Nat.digits 10 n).map digit).reverse

/-- The value of a row of digits. -/
def value (ds : List UInt8) : ℕ := ds.foldl (fun v b => v * 10 + (b.toNat - 48)) 0

/-- The number nearest to `z` among those of a signed type of `w` bits. -/
def saturate (w : ℕ) (z : ℤ) : ℤ := max (-2 ^ (w - 1)) (min z (2 ^ (w - 1) - 1))

/-- What is extracted as a signed number of `w` bits; 0 where no digit is found. -/
def extract (w : ℕ) (s : List UInt8) : ℤ :=
  match s.dropWhile isSpace with
  | 45 :: ds => saturate w (-(value (ds.takeWhile isDigit) : ℤ))
  | 43 :: ds => saturate w (value (ds.takeWhile isDigit))
  | ds => saturate w (value (ds.takeWhile isDigit))

/-! ## Reading back -/

theorem toNat_digit {d : ℕ} (h : d < 10) : (digit d).toNat = 48 + d := by
  show (48 + d) % 2 ^ 8 = 48 + d
  omega

theorem isDigit_digit {d : ℕ} (h : d < 10) : isDigit (digit d) = true := by
  have hd := toNat_digit h
  simp only [isDigit, UInt8.le_iff_toNat_le, hd, decide_eq_true_eq]
  constructor
  · show 48 ≤ 48 + d
    omega
  · show 48 + d ≤ 57
    omega

/-- A text consists of digits. -/
theorem isDigit_of_mem_text {n : ℕ} {b : UInt8} (h : b ∈ text n) : isDigit b = true := by
  unfold text at h
  split_ifs at h with hzero
  · rw [List.mem_singleton.mp h]
    exact isDigit_digit (by omega)
  · obtain ⟨d, hd, rfl⟩ := List.mem_map.mp (List.mem_reverse.mp h)
    exact isDigit_digit (Nat.digits_lt_base (by omega) hd)

/-- **Round trip.** The digits of a text give the number back. -/
theorem value_text (n : ℕ) : value (text n) = n := by
  unfold text
  split_ifs with hzero
  · rw [hzero]
    rfl
  · have hdigits : ∀ ds : List ℕ, (∀ d ∈ ds, d < 10) →
        (ds.map digit).foldr (fun b v => v * 10 + (b.toNat - 48)) 0 = Nat.ofDigits 10 ds := by
      intro ds hds
      induction ds with
      | nil => rfl
      | cons d ds ih =>
        have hd := toNat_digit (hds d List.mem_cons_self)
        have hrest := ih fun x hx => hds x (List.mem_cons_of_mem d hx)
        rw [List.map_cons, List.foldr_cons, hrest, Nat.ofDigits_cons, hd]
        omega
    rw [value, List.foldl_reverse, hdigits _ fun d hd => Nat.digits_lt_base (by omega) hd]
    exact Nat.ofDigits_digits 10 n

/-- What begins with a digit is neither white space nor a sign. -/
theorem extract_of_digits {w : ℕ} {s : List UInt8} (hs : ∀ b ∈ s, isDigit b = true) :
    extract w s = saturate w (value s) := by
  have htake : s.takeWhile isDigit = s := List.takeWhile_eq_self_iff.mpr hs
  cases s with
  | nil => rfl
  | cons b bs =>
    have hb : 48 ≤ b ∧ b ≤ 57 := of_decide_eq_true (hs b List.mem_cons_self)
    have hle : 48 ≤ b.toNat := hb.1
    have hspace : isSpace b = false := by
      refine decide_eq_false fun h => ?_
      rcases h with rfl | h
      · exact absurd hle (by decide)
      · have hge : b.toNat ≤ 13 := h.2
        omega
    rw [extract, List.dropWhile_cons_of_neg (by simp [hspace])]
    split
    · next heq =>
      rw [(List.cons.inj heq).1] at hle
      exact absurd hle (by decide)
    · next heq =>
      rw [(List.cons.inj heq).1] at hle
      exact absurd hle (by decide)
    · rw [htake]

/-- A text is extracted as its number, up to the largest one there is. -/
theorem extract_text (w n : ℕ) : extract w (text n) = min (n : ℤ) (2 ^ (w - 1) - 1) := by
  rw [extract_of_digits fun b hb => isDigit_of_mem_text hb, value_text, saturate]
  have hpow : (0 : ℤ) < 2 ^ (w - 1) := by positivity
  omega

end Decimal
