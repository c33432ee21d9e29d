import Mathlib.Tactic

/-!
# Strings that end at a NUL

A C string is read up to its first NUL or, without one, up to the end of its bytes, where the
terminator stands. Places are counted from the beginning of the string.
-/

namespace CString

/-- The place of the first `c` in front of the terminator. -/
def find (c : UInt8) : List UInt8 → Option ℕ
  | [] => none
  | b :: s => if b = c then some 0 else if b = 0 then none else (find c s).map (· + 1)

/-- `strchr(s + start, c)`. -/
def strchr (s : List UInt8) (start : ℕ) (c : UInt8) : Option ℕ :=
  (find c (s.drop start)).map (start + ·)

/-- The place of the first `c` from `start` on. -/
structure IsFirst (s : List UInt8) (start : ℕ) (c : UInt8) (pos : ℕ) : Prop where
  le : start ≤ pos
  here : s[pos]? = some c
  before : ∀ j, start ≤ j → j < pos → s[j]? ≠ some c ∧ s[j]? ≠ some 0

variable {s : List UInt8} {c : UInt8} {start pos : ℕ}

theorem find_eq_some {i : ℕ} :
    find c s = some i ↔ s[i]? = some c ∧ ∀ j < i, s[j]? ≠ some c ∧ s[j]? ≠ some 0 := by
  induction s generalizing i with
  | nil => simp [find]
  | cons b s ih =>
    rw [find]
    cases i with
    | zero =>
      split_ifs with hb h0
      · simp [hb]
      · simp [hb]
      · simp [hb]
    | succ i =>
      have hsplit : (∀ j < i + 1, (b :: s)[j]? ≠ some c ∧ (b :: s)[j]? ≠ some 0) ↔
          (b ≠ c ∧ b ≠ 0) ∧ ∀ j < i, s[j]? ≠ some c ∧ s[j]? ≠ some 0 := by
        constructor
        · intro h
          refine ⟨?_, fun j hj => h (j + 1) (Nat.succ_lt_succ hj)⟩
          have hzero := h 0 (Nat.succ_pos i)
          simpa using hzero
        · rintro ⟨hb, hrest⟩ j hj
          cases j with
          | zero => simpa using hb
          | succ j => exact hrest j (Nat.lt_of_succ_lt_succ hj)
      rw [hsplit, List.getElem?_cons_succ]
      split_ifs with hb h0
      · simp [hb]
      · simp [h0]
      · rw [Option.map_eq_some_iff]
        simp [hb, h0, ih]

theorem strchr_eq_some : strchr s start c = some pos ↔ IsFirst s start c pos := by
  rw [strchr, Option.map_eq_some_iff]
  constructor
  · rintro ⟨i, hi, rfl⟩
    rw [find_eq_some] at hi
    simp only [List.getElem?_drop] at hi
    refine ⟨Nat.le_add_right start i, hi.1, fun j hle hlt => ?_⟩
    have hj := hi.2 (j - start) (by omega)
    rwa [Nat.add_sub_cancel' hle] at hj
  · intro h
    refine ⟨pos - start, ?_, Nat.add_sub_cancel' h.le⟩
    rw [find_eq_some]
    simp only [List.getElem?_drop]
    refine ⟨?_, fun j hj => h.before (start + j) (Nat.le_add_right start j) (by omega)⟩
    rw [Nat.add_sub_cancel' h.le]
    exact h.here

/-- There is one first place. -/
theorem IsFirst.unique {pos' : ℕ} (h : IsFirst s start c pos) (h' : IsFirst s start c pos') :
    pos = pos' := by
  rcases lt_trichotomy pos pos' with hlt | heq | hgt
  · exact absurd h.here (h'.before pos h.le hlt).1
  · exact heq
  · exact absurd h'.here (h.before pos' h'.le hgt).1

/-- It is also the first one from any place in front of it. -/
theorem IsFirst.restart {start' : ℕ} (h : IsFirst s start c pos) (hle : start ≤ start')
    (hle' : start' ≤ pos) : IsFirst s start' c pos :=
  ⟨hle', h.here, fun j hj hlt => h.before j (hle.trans hj) hlt⟩

theorem IsFirst.lt_length (h : IsFirst s start c pos) : pos < s.length :=
  (List.getElem?_eq_some_iff.mp h.here).1

end CString
